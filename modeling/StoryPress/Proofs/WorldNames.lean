import StoryPress.Proofs.Viewpoints

/-!
# Names from worlds

A world names viewpoints that are listed already. Its ids are looked up and its names are kept as they are written,
where an addition trims both, so the catalog can differ from the one that additions of the same tags would give.

* `name?_nameFrom`: the name that a viewpoint takes from a world;
* `name?_addKnown`: the name that additions give it, if they are made for listed ids only;
* `named_as_written`: what a catalog takes from a world, and when it is what additions would give.
-/

namespace StoryPress

theorem ViewpointTag.not_blank_of_name? {t : ViewpointTag} {name : String} (h : t.name? = some name) :
    Text.isBlankText name = false := by
  cases t with
  | bare id => cases h
  | named id written =>
    have hkept := (Option.filter_eq_some_iff.1 h).2
    rwa [Bool.not_eq_true'] at hkept

namespace World

/-- The first name that a world has for exactly this id, as it is written. -/
def writtenName? (w : World) (id : String) : Option String :=
  w.povs.findSome? fun t => if t.id = id then t.name? else none

/-- The ids and names of the tags of a world. -/
def names (w : World) : List (String × Option String) := w.povs.map fun t => (t.id, t.name?)

end World

namespace ViewpointCatalog

open Collected (addId)

variable {c : ViewpointCatalog} {w : World} {x : String}

/-- Adds those tags of a world, in order, whose trimmed ids are listed. -/
def addKnown (c : ViewpointCatalog) (w : World) : ViewpointCatalog :=
  (w.povs.filter fun t => c.contains (Text.trim t.id)).foldl addTag c

/-! ## Names as they are written -/

theorem name?_nameFrom (hx : x ∈ c.ids) : (c.nameFrom w).name? x = (c.name? x).or (w.writtenName? x) := by
  unfold nameFrom World.writtenName?
  induction w.povs generalizing c with
  | nil => rw [List.foldl_nil, List.findSome?_nil, Option.or_none]
  | cons t tags ih =>
    rw [List.foldl_cons, List.findSome?_cons]
    cases hi : c.positions.get? t.id with
    | none =>
      have hne : t.id ≠ x := by
        rintro rfl
        exact get?_positions_eq_none.1 hi hx
      simp only [if_neg hne]
      exact ih hx
    | some i =>
      have hlisted : x ∈ (c.nameAt i t.name?).ids := by rwa [ids_nameAt]
      simp only
      rw [ih hlisted, name?_nameAt hi]
      by_cases hid : x = t.id
      · simp only [if_pos hid, if_pos hid.symm]
        cases t.name? with
        | none => rw [Option.or_none]
        | some name => rw [Option.or_assoc, Option.some_or]
      · simp only [if_neg hid, if_neg (Ne.symm hid)]

/-! ## Names as they are added -/

theorem addKnown_eq (c : ViewpointCatalog) (w : World) :
    c.addKnown w = (w.names.filter fun t => c.contains (Text.trim t.1)).foldl (fun c t => c.add t.1 t.2) c := by
  rw [addKnown, World.names, List.filter_map, List.foldl_map]
  rfl

theorem foldl_addId_of_listed {ids new : List String} (h : ∀ id ∈ new, id ∈ ids) : new.foldl addId ids = ids := by
  induction new with
  | nil => rfl
  | cons id new ih =>
    rw [List.foldl_cons, addId, if_pos (List.contains_iff_mem.2 (h id List.mem_cons_self))]
    exact ih fun id hid => h id (List.mem_cons_of_mem _ hid)

/-- Additions for listed ids list no other. -/
theorem ids_addKnown (c : ViewpointCatalog) (w : World) : (c.addKnown w).ids = c.ids := by
  rw [addKnown_eq, ids_foldl_add]
  apply foldl_addId_of_listed
  intro id hid
  obtain ⟨t, ht, hkept⟩ := List.mem_filterMap.1 hid
  have hknown := contains_iff.1 (List.mem_filter.1 ht).2
  rwa [Text.trim_of_nonBlank? hkept] at hknown

/-- Tags of other ids give no name. -/
theorem firstName?_filter {keep : String × Option String → Bool} {tags : List (String × Option String)}
    (h : ∀ t ∈ tags, Text.nonBlank? t.1 = some x → keep t = true) :
    firstName? (tags.filter keep) x = firstName? tags x := by
  induction tags with
  | nil => rfl
  | cons t tags ih =>
    have hrest := ih fun u hu => h u (List.mem_cons_of_mem _ hu)
    by_cases hkeep : keep t = true
    · rw [List.filter_cons_of_pos hkeep, firstName?, firstName?, List.findSome?_cons, List.findSome?_cons]
      unfold firstName? at hrest
      rw [hrest]
    · have hother : Text.nonBlank? t.1 ≠ some x := fun hid => hkeep (h t List.mem_cons_self hid)
      rw [List.filter_cons_of_neg hkeep, hrest, firstName?, firstName?, List.findSome?_cons, if_neg hother]

theorem name?_addKnown (hx : x ∈ c.ids) : (c.addKnown w).name? x = (c.name? x).or (firstName? w.names x) := by
  rw [addKnown_eq, name?_foldl_add, firstName?_filter]
  intro t _ hid
  rw [Text.trim_of_nonBlank? hid]
  exact contains_iff.2 hx

/-! ## Worlds and additions -/

/-- What a catalog takes from a world, and how that compares with additions of the tags for listed ids. -/
structure TakesNames (c : ViewpointCatalog) (w : World) : Prop where
  ids_eq : (c.nameFrom w).ids = c.ids ∧ (c.addKnown w).ids = c.ids
  /-- A name is kept, whatever the world has. -/
  kept : ∀ id name, c.name? id = some name →
    (c.nameFrom w).name? id = some name ∧ (c.addKnown w).name? id = some name
  /-- A viewpoint without a name takes the first one for exactly its id, as it is written. -/
  taken : ∀ id ∈ c.ids, c.name? id = none → (c.nameFrom w).name? id = w.writtenName? id
  /-- Additions give it the first one for its id once that is trimmed, and trim the name. -/
  added : ∀ id ∈ c.ids, c.name? id = none → (c.addKnown w).name? id = firstName? w.names id
  not_blank : ∀ id name, w.writtenName? id = some name → Text.isBlankText name = false
  trimmed : ∀ id name, firstName? w.names id = some name → Text.nonBlank? name = some name
  same_iff : c.nameFrom w = c.addKnown w ↔
    ∀ id ∈ c.ids, c.name? id = none → w.writtenName? id = firstName? w.names id
  /-- It makes no difference where nothing can be trimmed. -/
  same_of_trimmed : (∀ t ∈ w.povs, Text.trim t.id = t.id ∧ ∀ name ∈ t.name?, Text.trim name = name) →
    c.nameFrom w = c.addKnown w

theorem writtenName?_of_trimmed (hx : Text.nonBlank? x = some x)
    (h : ∀ t ∈ w.povs, Text.trim t.id = t.id ∧ ∀ name ∈ t.name?, Text.trim name = name) :
    w.writtenName? x = firstName? w.names x := by
  unfold World.writtenName? firstName? World.names
  generalize w.povs = tags at h ⊢
  induction tags with
  | nil => rfl
  | cons t tags ih =>
    obtain ⟨hid, hname⟩ := h t List.mem_cons_self
    have hnonBlank : Text.nonBlank? t.id = some x ↔ t.id = x := by
      constructor
      · intro ht
        rw [← hid, Text.trim_of_nonBlank? ht]
      · rintro rfl
        exact hx
    have hkept : t.name?.bind Text.nonBlank? = t.name? := by
      cases ht : t.name? with
      | none => rfl
      | some name =>
        rw [Option.bind_some, Text.nonBlank?_of_not_blank (ViewpointTag.not_blank_of_name? ht), hname name ht]
    rw [List.map_cons, List.findSome?_cons, List.findSome?_cons, ih fun u hu => h u (List.mem_cons_of_mem _ hu)]
    simp only [hnonBlank, hkept]

theorem not_blank_of_writtenName? {name : String} (h : w.writtenName? x = some name) :
    Text.isBlankText name = false := by
  obtain ⟨t, -, ht⟩ := List.exists_of_findSome?_eq_some h
  split at ht
  · exact ViewpointTag.not_blank_of_name? ht
  · cases ht

/-- A catalog takes names from a world for the ids it lists, as both are written. It takes what additions would give
if and only if, for each viewpoint without a name, the first name for exactly its id is the first name for its id when
both are trimmed. -/
theorem named_as_written (h : c.Built) (w : World) : c.TakesNames w := by
  have hlisted {id name : String} (hname : c.name? id = some name) : id ∈ c.ids := by
    apply Classical.byContradiction
    intro hno
    rw [name?_of_not_mem hno] at hname
    cases hname
  have hsame : c.nameFrom w = c.addKnown w ↔
      ∀ id ∈ c.ids, c.name? id = none → w.writtenName? id = firstName? w.names id := by
    constructor
    · intro heq id hid hnone
      have hboth := name?_nameFrom (w := w) hid
      rwa [heq, name?_addKnown hid, hnone, Option.none_or, Option.none_or, eq_comm] at hboth
    · intro hall
      apply eq_of_ids_of_name?
      · rw [ids_nameFrom, ids_addKnown]
      · intro id
        by_cases hid : id ∈ c.ids
        · rw [name?_nameFrom hid, name?_addKnown hid]
          cases hname : c.name? id with
          | none => rw [hall id hid hname]
          | some name => rfl
        · rw [name?_of_not_mem (by rwa [ids_nameFrom]), name?_of_not_mem (by rwa [ids_addKnown])]
  refine ⟨⟨ids_nameFrom c w, ids_addKnown c w⟩, ?_, ?_, ?_, fun _ _ => not_blank_of_writtenName?,
    fun _ _ => nonBlank?_of_firstName?, hsame, ?_⟩
  · intro id name hname
    rw [name?_nameFrom (hlisted hname), name?_addKnown (hlisted hname), hname]
    exact ⟨rfl, rfl⟩
  · intro id hid hnone
    rw [name?_nameFrom hid, hnone, Option.none_or]
  · intro id hid hnone
    rw [name?_addKnown hid, hnone, Option.none_or]
  · intro htrimmed
    exact hsame.2 fun id hid _ => writtenName?_of_trimmed (h.nonBlank?_eq id hid) htrimmed

/-- A world that names one viewpoint under a padded id, and another one with a padded name. -/
def paddedWorld : World := { povs := [.named " ann " (some "Ann"), .named "bob" (some " Bob ")] }

/-- The first viewpoint gets no name, and the second one a padded name. -/
theorem names_differ_of_padding :
    ((ofTags [("ann", none), ("bob", none)]).nameFrom paddedWorld).entries = [⟨"ann", none⟩, ⟨"bob", some " Bob "⟩] ∧
      ((ofTags [("ann", none), ("bob", none)]).addKnown paddedWorld).entries =
        [⟨"ann", some "Ann"⟩, ⟨"bob", some "Bob"⟩] ∧
      (ofTags [("ann", none), ("bob", none)]).nameFrom paddedWorld ≠
        (ofTags [("ann", none), ("bob", none)]).addKnown paddedWorld := by
  have htakes := named_as_written (built_ofTags [("ann", none), ("bob", none)]) paddedWorld
  refine ⟨by decide, by decide, ?_⟩
  intro heq
  have hann := htakes.same_iff.1 heq "ann" (by decide) (by decide)
  exact absurd hann (by decide)

end ViewpointCatalog

end StoryPress
