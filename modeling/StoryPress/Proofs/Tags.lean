import StoryPress.Proofs.Records
import StoryPress.Proofs.Viewpoints

/-!
# Viewpoint tags that are read in two forms

A value that is a tag in the exact form is found to be the same tag where scenes look for one.

* `ViewpointTag.uniform_read`, `ViewpointTag.read_toJson`: a tag is read from its normal form too, and from what it is
  written as;
* `ViewpointTag.locates_id`, `ViewpointTag.locates_name`: the parts of a tag are found where the exact form reads them;
* `ViewpointTag.find?_of_read`: what is read in the exact form is what is found;
* `ViewpointTag.read_alike`: so scenes and placements with the same list of tags name the same viewpoints.
-/

namespace StoryPress

open Json (Tree Uniform Encodes)

namespace ViewpointTag

/-! ## The exact form -/

theorem read_eq_ok_iff {t : Tree} {tag : ViewpointTag} :
    read t = .ok tag ↔ ∃ v, t.raw = .ok v ∧ ofWritten? v = some tag := by
  refine Json.whole_eq_ok_iff fun t => ?_
  unfold read
  congr 1
  funext v
  cases ofWritten? v <;> rfl

/-- A tag is a text, or an object with an id and perhaps a name. -/
theorem twoForms_read : Json.TwoForms read bare record fun t => named t.1 t.2 := by
  intro v tag
  rw [read_eq_ok_iff, Tree.raw_ofJson]
  cases v with
  | string s => simp [ofWritten?, eq_comm]
  | object members =>
    cases h : record.read (Tree.ofJson (.object members)) <;> simp [ofWritten?, h, eq_comm]
  | _ => simp [ofWritten?]

/-- The field with the id. -/
def idField : Json.Field (String × Option String) :=
  (Json.Field.of "id" Tree.text fun id t => (id, t.2)).needed

/-- The field with the name. -/
def nameField : Json.Field (String × Option String) :=
  { Json.Field.of "name" (Tree.optional Tree.text) fun name t => (t.1, name) with aliases := ["display_name", "label"] }

theorem fields_record : record.fields = [idField, nameField] := rfl

theorem free_record : record.Free := by
  have hapart : (Json.Field.of "id" Tree.text fun id (t : String × Option String) => (id, t.2)).Apart
      (Json.Field.of "name" (Tree.optional Tree.text) fun name t => (t.1, name)) :=
    Json.Field.apart_of fun _ _ _ => rfl
  exact List.pairwise_pair.2 hapart

theorem uniform_record : Uniform record.read := by
  refine Json.Record.uniform free_record ?_
  intro f hf
  rcases List.mem_pair.1 (fields_record ▸ hf) with rfl | rfl
  · exact Json.Field.uniform_of "id" Json.uniform_text
  · exact Json.Field.uniform_of "name" Json.uniform_text.optional

theorem uniform_read : Uniform read := twoForms_read.uniform uniform_record

theorem read_toJson (tag : ViewpointTag) : read (Tree.ofJson tag.toJson) = .ok tag := by
  cases tag with
  | bare id => rfl
  | named id name => cases name <;> rfl

theorem toJson_ne_null (tag : ViewpointTag) : tag.toJson ≠ .null := by
  cases tag <;> simp [toJson]

/-! ## The tag that is found -/

/-- The id that is found among the members of an object. -/
def foundId (members : List (String × Json)) : Option String := (members.lookup "id").bind Json.asString?

/-- The name that is found among the members of an object. -/
def foundName (members : List (String × Json)) : Option String :=
  nameKeys.findSome? fun key => (members.lookup key).bind Json.asString?

theorem find?_object (members : List (String × Json)) :
    find? (.object members) = (foundId members).map fun id => named id (foundName members) := rfl

theorem foundName_eq (members : List (String × Json)) : foundName members =
    ((members.lookup "name").bind Json.asString?).or
      (((members.lookup "display_name").bind Json.asString?).or ((members.lookup "label").bind Json.asString?)) := by
  simp only [foundName, nameKeys, List.findSome?_cons, List.findSome?_nil]
  cases (members.lookup "name").bind Json.asString? <;>
    cases (members.lookup "display_name").bind Json.asString? <;>
      cases (members.lookup "label").bind Json.asString? <;> rfl

theorem idField_called_iff {key : String} : idField.called key = true ↔ key = "id" := by
  change ("id" == key || [].contains key) = true ↔ key = "id"
  rw [List.contains_nil, Bool.or_false, beq_iff_eq, eq_comm]

theorem nameField_called_iff {key : String} : nameField.called key = true ↔ key ∈ nameKeys := by
  change ("name" == key || ["display_name", "label"].contains key) = true ↔ key ∈ nameKeys
  rw [Bool.or_eq_true, List.contains_iff_mem, beq_iff_eq, eq_comm]
  exact List.mem_cons.symm

/-- The fields that a key can stand for. -/
theorem field_cases (key : String) :
    (record.fields.find? (·.called key) = some idField ∧ key = "id") ∨
      (record.fields.find? (·.called key) = some nameField ∧ key ∈ nameKeys) ∨
        record.fields.find? (·.called key) = none ∧ key ≠ "id" ∧ key ∉ nameKeys := by
  rw [fields_record, List.find?_cons, List.find?_cons, List.find?_nil]
  by_cases hkey : key = "id"
  · exact .inl ⟨by rw [idField_called_iff.2 hkey], hkey⟩
  · rw [Bool.eq_false_iff.2 (mt idField_called_iff.1 hkey)]
    by_cases hmem : key ∈ nameKeys
    · exact .inr (.inl ⟨by rw [nameField_called_iff.2 hmem], hmem⟩)
    · exact .inr (.inr ⟨by rw [Bool.eq_false_iff.2 (mt nameField_called_iff.1 hmem)], hkey, hmem⟩)

theorem lookup_cons_of_ne {key name : String} (v : Json) (members : List (String × Json)) (h : name ≠ key) :
    ((key, v) :: members).lookup name = members.lookup name := by
  rw [List.lookup_cons, beq_false_of_ne h]

/-- No name is held under any key where the field is not among the members. -/
theorem lookup_eq_none_of_not_mem {members : List (String × Json)}
    (h : "name" ∉ (record.known members).map (·.1.name)) : ∀ key ∈ nameKeys, members.lookup key = none := by
  intro key hmem
  rcases field_cases key with ⟨-, rfl⟩ | ⟨hfield, -⟩ | ⟨-, -, hno⟩
  · exact absurd hmem (by decide)
  · exact Json.Record.lookup_eq_none hfield h
  · exact absurd hmem hno

theorem foundName_eq_none {members : List (String × Json)} (h : "name" ∉ (record.known members).map (·.1.name)) :
    foundName members = none := by
  have hnone := lookup_eq_none_of_not_mem h
  rw [foundName_eq, hnone "name" (by decide), hnone "display_name" (by decide), hnone "label" (by decide)]
  rfl

theorem foundName_cons_of_not_mem {key : String} (v : Json) (members : List (String × Json)) (h : key ∉ nameKeys) :
    foundName ((key, v) :: members) = foundName members := by
  have hne (name : String) (hname : name ∈ nameKeys) : name ≠ key := fun he => h (he ▸ hname)
  rw [foundName_eq, foundName_eq, lookup_cons_of_ne v members (hne "name" (by decide)),
    lookup_cons_of_ne v members (hne "display_name" (by decide)), lookup_cons_of_ne v members (hne "label" (by decide))]

/-- A name that is held under one key only is found. -/
theorem foundName_cons_of_mem {key : String} (v : Json) {members : List (String × Json)} (h : key ∈ nameKeys)
    (hrest : ∀ name ∈ nameKeys, members.lookup name = none) : foundName ((key, v) :: members) = v.asString? := by
  have hkey : key = "name" ∨ key = "display_name" ∨ key = "label" := by simpa [nameKeys] using h
  have hname := hrest "name" (by decide)
  have hdisplay := hrest "display_name" (by decide)
  have hlabel := hrest "label" (by decide)
  rw [foundName_eq]
  rcases hkey with rfl | rfl | rfl <;> simp [List.lookup_cons, hname, hdisplay, hlabel]

theorem asString?_of_read {v : Json} {name : Option String}
    (h : Tree.optional Tree.text (Tree.ofJson v) = .ok name) : v.asString? = name := by
  by_cases hv : v = .null
  · rw [hv] at h ⊢
    exact Except.ok.inj h
  · rw [Json.optional_ofJson hv] at h
    obtain ⟨s, hs, rfl⟩ := map_eq_ok.1 h
    rw [Json.Tree.text_ofJson_iff.1 hs]
    rfl

/-- An id is found where the record has its id from. -/
theorem locates_id : record.Locates "id" foundId fun t => some t.1 := by
  constructor
  · intro f hf hne b
    rcases List.mem_pair.1 (fields_record ▸ hf) with rfl | rfl
    · exact absurd rfl hne
    · exact Json.Field.preserves_of "name" fun _ _ _ _ h => h
  · intro key v members hother
    rcases field_cases key with ⟨hfield, -⟩ | ⟨-, hname⟩ | ⟨-, hid, -⟩
    · exact absurd rfl (hother idField hfield)
    · have hne : "id" ≠ key := fun he => absurd (he ▸ hname) (by decide)
      rw [foundId, lookup_cons_of_ne v members hne, foundId]
    · rw [foundId, lookup_cons_of_ne v members hid.symm, foundId]
  · intro key v members f a b hf hname _ hread
    rcases field_cases key with ⟨hfield, rfl⟩ | ⟨hfield, -⟩ | ⟨hfield, -⟩
    · obtain rfl := Option.some.inj (hfield.symm.trans hf)
      obtain ⟨s, hs, rfl⟩ := map_eq_ok.1 hread
      rw [foundId, List.lookup_cons_self, Json.Tree.text_ofJson_iff.1 hs]
      rfl
    · obtain rfl := Option.some.inj (hfield.symm.trans hf)
      exact absurd hname (by decide)
    · cases hfield.symm.trans hf

/-- A name is found where the record has its name from. -/
theorem locates_name : record.Locates "name" foundName (·.2) := by
  constructor
  · intro f hf hne b
    rcases List.mem_pair.1 (fields_record ▸ hf) with rfl | rfl
    · exact Json.Field.preserves_of "id" fun _ _ _ _ h => h
    · exact absurd rfl hne
  · intro key v members hother
    rcases field_cases key with ⟨-, rfl⟩ | ⟨hfield, -⟩ | ⟨-, -, hname⟩
    · exact foundName_cons_of_not_mem v members (by decide)
    · exact absurd rfl (hother nameField hfield)
    · exact foundName_cons_of_not_mem v members hname
  · intro key v members f a b hf hname hnot hread
    rcases field_cases key with ⟨hfield, -⟩ | ⟨hfield, hkey⟩ | ⟨hfield, -⟩
    · obtain rfl := Option.some.inj (hfield.symm.trans hf)
      exact absurd hname (by decide)
    · obtain rfl := Option.some.inj (hfield.symm.trans hf)
      obtain ⟨name, hn, rfl⟩ := map_eq_ok.1 hread
      rw [foundName_cons_of_mem v hkey (lookup_eq_none_of_not_mem hnot), asString?_of_read hn]
    · cases hfield.symm.trans hf

/-- What is read in the exact form is what is found. -/
theorem find?_of_read {v : Json} {tag : ViewpointTag} (h : read (Tree.ofJson v) = .ok tag) : find? v = some tag := by
  rcases (twoForms_read v tag).1 h with ⟨s, rfl, rfl⟩ | ⟨members, ⟨id, name⟩, rfl, hrecord, rfl⟩
  · rfl
  · have hgives := Json.Record.read_object_iff.1 hrecord
    have hneeded : "id" ∈ (record.known members).map (·.1.name) :=
      hgives.complete idField List.mem_cons_self rfl
    have hid : foundId members = some id := locates_id.found_eq hgives.once hneeded hgives.entered
    have hname : foundName members = name := by
      by_cases hmem : "name" ∈ (record.known members).map (·.1.name)
      · exact locates_name.found_eq hgives.once hmem hgives.entered
      · exact (foundName_eq_none hmem).trans (locates_name.get_eq hmem hgives.entered).symm
    rw [find?_object, hid, hname]
    rfl

/-! ## Lists of tags -/

theorem ne_array_of_find? {v : Json} {tag : ViewpointTag} (h : find? v = some tag) : v.asArray? = none := by
  cases v with
  | array items => cases h
  | _ => rfl

end ViewpointTag

namespace ViewpointCatalog

theorem addValue_eq_addTag {v : Json} {tag : ViewpointTag} (h : ViewpointTag.find? v = some tag)
    (c : ViewpointCatalog) : c.addValue v = c.addTag tag := by
  rw [addValue, ViewpointTag.ne_array_of_find? h, Option.getD_none]
  simp [h]

/-- Values that are tags add what the tags add. -/
theorem foldl_addValue {vs : List Json} {tags : List ViewpointTag}
    (h : List.Forall₂ (fun v tag => ViewpointTag.find? v = some tag) vs tags) (c : ViewpointCatalog) :
    vs.foldl addValue c = tags.foldl addTag c := by
  induction h generalizing c with
  | nil => rfl
  | cons hv _ ih => rw [List.foldl_cons, List.foldl_cons, addValue_eq_addTag hv, ih]

end ViewpointCatalog

/-- A placement is a text, or an object with a scene and perhaps tags. -/
theorem Placement.twoForms_read : Json.TwoForms read bare record fun f => tagged f.scene f.pov f.povs := by
  have hwhole (t : Tree) : read t = t.raw >>= fun v => (ofWritten? v).elim (.error .shape) .ok := by
    unfold read
    congr 1
    funext v
    cases ofWritten? v <;> rfl
  intro v p
  rw [Json.whole_eq_ok_iff hwhole, Tree.raw_ofJson]
  cases v with
  | string s => simp [ofWritten?, eq_comm]
  | object members =>
    cases h : record.read (Tree.ofJson (.object members)) <;> simp [ofWritten?, h, eq_comm]
  | _ => simp [ofWritten?]

/-- A placement with a list of tags is read from an object that holds the list. -/
theorem Placement.read_povs (scene : String) {vs : List Json} {tags : List ViewpointTag}
    (h : Tree.list ViewpointTag.read (Tree.ofJson (.array vs)) = .ok tags) :
    read (Tree.ofJson (.object [("scene_id", .string scene), ("povs", .array vs)])) = .ok (tagged scene none tags) := by
  have hrecord : record.read (Tree.ofJson (.object [("scene_id", .string scene), ("povs", .array vs)])) =
      .ok ⟨scene, none, tags⟩ := by
    refine Json.Record.read_object_iff.2 ⟨?_, ?_, ?_⟩
    · change ["scene_id", "povs"].Nodup
      decide
    · change ∀ f ∈ record.fields, f.required = true → f.name ∈ ["scene_id", "povs"]
      simp [record, Json.Field.needed, Json.Field.of]
    · exact bind_eq_ok.2 ⟨_, rfl, bind_eq_ok.2 ⟨_, map_eq_ok.2 ⟨tags, h, rfl⟩, rfl⟩⟩
  exact (twoForms_read _ _).2 (.inr ⟨_, _, rfl, hrecord, rfl⟩)

/-- A scene with a list of values is read from an object that holds the list. -/
theorem Scene.read_povs (vs : List Json) :
    read (Tree.ofJson (.object [("povs", .array vs)])) = .ok { povs := vs.map Json.normalize } := by
  have hlist : Tree.list Tree.value (Tree.ofJson (.array vs)) = .ok (vs.map Json.normalize) :=
    Json.Tree.list_ofJson_iff.2 ⟨vs, rfl, by simp [Tree.value_ofJson]⟩
  refine Json.Record.read_object_iff.2 ⟨?_, ?_, ?_⟩
  · change ["povs"].Nodup
    decide
  · simp [record, Json.Field.of]
  · exact bind_eq_ok.2 ⟨_, map_eq_ok.2 ⟨_, hlist, rfl⟩, rfl⟩

namespace ViewpointTag

/-- A value is a tag in the exact form, and is found to be that tag; so is its normal form. -/
structure BothWays (v : Json) (tag : ViewpointTag) : Prop where
  read : Encodes ViewpointTag.read v tag
  found : find? v = some tag
  found_normal : find? v.normalize = some tag

theorem bothWays_of_read {v : Json} {tag : ViewpointTag} (h : read (Tree.ofJson v) = .ok tag) : BothWays v tag :=
  ⟨uniform_read.encodes h, find?_of_read h, find?_of_read (uniform_read v tag h)⟩

/-- The exact form and the form of scenes agree on the values that are tags, so scenes and placements that list them
name the same viewpoints, after whatever was named before. -/
theorem read_alike :
    (∀ t tag, read t = .ok tag ↔ ∃ v, t.raw = .ok v ∧ read (Tree.ofJson v) = .ok tag) ∧
      (∀ v tag, read (Tree.ofJson v) = .ok tag → BothWays v tag) ∧
      (∀ tag : ViewpointTag, BothWays tag.toJson tag) ∧
        ∀ vs tags, List.Forall₂ (fun v tag => read (Tree.ofJson v) = .ok tag) vs tags →
          (∀ c : ViewpointCatalog, (vs.map Json.normalize).foldl ViewpointCatalog.addValue c =
            tags.foldl ViewpointCatalog.addTag c) ∧
          ∀ scene, ∃ s p,
            Scene.read (Tree.ofJson (.object [("povs", .array vs)])) = .ok s ∧
            Placement.read (Tree.ofJson (.object [("scene_id", .string scene), ("povs", .array vs)])) = .ok p ∧
            s.povs = vs.map Json.normalize ∧ p.tags = tags ∧
            ViewpointCatalog.ofScene s = ViewpointCatalog.ofPlacement p := by
  refine ⟨fun t tag => ?_, fun v tag => bothWays_of_read, fun tag => bothWays_of_read tag.read_toJson, ?_⟩
  · have hvalue (v : Json) : read (Tree.ofJson v) = .ok tag ↔ ofWritten? v = some tag := by
      rw [read_eq_ok_iff, Tree.raw_ofJson]
      simp
    simp only [hvalue, read_eq_ok_iff]
  · intro vs tags h
    have hfound : List.Forall₂ (fun v tag => find? v = some tag) (vs.map Json.normalize) tags :=
      List.forall₂_map_left_iff.2 (h.imp fun v tag hv => (bothWays_of_read hv).found_normal)
    have hsame := ViewpointCatalog.foldl_addValue hfound
    refine ⟨hsame, fun scene => ⟨_, _, Scene.read_povs vs, Placement.read_povs scene ?_, rfl, rfl, ?_⟩⟩
    · exact Tree.list_ofJson_iff.2 ⟨vs, rfl, h⟩
    · exact hsame {}

/-- Tags with other names for the name, with null for it, and with members that are passed over. -/
def writtenTags : List Json :=
  [.string "ann", .object [("label", .string "Bob"), ("id", .string "bob")],
    .object [("note", .null), ("id", .string "cat"), ("display_name", .null), ("note", .array [])],
    .object [("id", .string "dan"), ("name", .string " "), ("color", .object [])]]

theorem read_alike_of_written_tags :
    let tags := [bare "ann", named "bob" (some "Bob"), named "cat" none, named "dan" (some " ")]
    List.Forall₂ (fun v tag => read (Tree.ofJson v) = .ok tag) writtenTags tags ∧
      List.Forall₂ BothWays writtenTags tags ∧
      ∃ s p, Scene.read (Tree.ofJson (.object [("povs", .array writtenTags)])) = .ok s ∧
        Placement.read (Tree.ofJson (.object [("scene_id", .string "a"), ("povs", .array writtenTags)])) = .ok p ∧
        p.tags = tags ∧ ViewpointCatalog.ofScene s = ViewpointCatalog.ofPlacement p ∧
        (ViewpointCatalog.ofScene s).ids = ["ann", "bob", "cat", "dan"] := by
  intro tags
  have hread : List.Forall₂ (fun v tag => read (Tree.ofJson v) = .ok tag) writtenTags tags :=
    .cons rfl (.cons rfl (.cons rfl (.cons rfl .nil)))
  obtain ⟨-, hform, -, hlists⟩ := read_alike
  obtain ⟨s, p, hs, hp, -, htags, hsame⟩ := (hlists writtenTags tags hread).2 "a"
  refine ⟨hread, hread.imp hform, s, p, hs, hp, htags, hsame, ?_⟩
  rw [hsame, ViewpointCatalog.ofPlacement, htags]
  decide

end ViewpointTag

end StoryPress
