import StoryPress.Proofs.Beside
import StoryPress.Proofs.RoutePlans

/-!
# Catalogs and their tags

A catalog is determined by the ids it lists and by the name it has for each. An added tag gives at most one more id
and at most one more name, so what a list of tags builds is read off the list, and a catalog that is added to
another one counts as the list that built it.

* `eq_of_ids_of_name?`: ids and names determine a catalog, its positions included;
* `name?_add`: what one tag does to the names;
* `ids_ofTags`, `name?_ofTags`: the ids and the names that a list of tags gives;
* `determined_by_tags`: what the catalog of a list of tags says, and that lists are joined where catalogs are.
-/

namespace StoryPress.ViewpointCatalog

open Collected (addId)

variable {c d : ViewpointCatalog} {id x : String}

/-! ## Lookups -/

theorem find?_eq_some_iff {v : Viewpoint} : c.find? id = some v ↔ v ∈ c.entries ∧ v.id = id := by
  unfold find?
  rw [Option.bind_eq_some_iff]
  constructor
  · rintro ⟨i, hi, hv⟩
    rw [c.indexed, hv, Option.map_some] at hi
    exact ⟨List.mem_of_getElem? hv, Option.some.inj hi⟩
  · rintro ⟨hv, rfl⟩
    obtain ⟨i, hi⟩ := List.mem_iff_getElem?.1 hv
    exact ⟨i, (c.indexed _ _).2 (by rw [hi, Option.map_some]), hi⟩

theorem find?_eq_none_iff : c.find? id = none ↔ id ∉ c.ids := by
  rw [Option.eq_none_iff_forall_ne_some]
  simp only [ne_eq, find?_eq_some_iff, ids, List.mem_map, not_exists]

/-- The name that a catalog has for an id. -/
def name? (c : ViewpointCatalog) (id : String) : Option String := (c.find? id).bind (·.name)

theorem name?_of_mem {v : Viewpoint} (h : v ∈ c.entries) : c.name? v.id = v.name := by
  rw [name?, find?_eq_some_iff.2 ⟨h, rfl⟩, Option.bind_some]

theorem name?_of_not_mem (h : id ∉ c.ids) : c.name? id = none := by
  rw [name?, find?_eq_none_iff.2 h, Option.bind_none]

theorem entries_eq (c : ViewpointCatalog) : c.entries = c.ids.map fun id => ⟨id, c.name? id⟩ := by
  rw [ids, List.map_map]
  conv_lhs => rw [← List.map_id c.entries]
  apply List.map_congr_left
  intro v hv
  rw [Function.comp_apply, name?_of_mem hv, id_eq]

/-- Ids and names determine a catalog. -/
theorem eq_of_ids_of_name? (hids : c.ids = d.ids) (hnames : ∀ id, c.name? id = d.name? id) : c = d := by
  have hentries : c.entries = d.entries := by
    rw [entries_eq c, entries_eq d, hids]
    exact List.map_congr_left fun id _ => by rw [hnames]
  have hpositions : c.positions = d.positions := by
    apply OrderedMap.ext_get?
    intro id
    apply Option.ext
    intro i
    rw [c.indexed, d.indexed, hentries]
  cases c
  cases d
  congr

theorem nodup_ids (c : ViewpointCatalog) : c.ids.Nodup := by
  rw [List.nodup_iff_getElem?_ne_getElem?]
  intro i j hij hj heq
  have hlast : c.ids[j]? = some c.ids[j] := List.getElem?_eq_getElem hj
  have hi := get?_positions.2 (heq.trans hlast)
  rw [get?_positions.2 hlast] at hi
  exact hij.ne' (Option.some.inj hi)

/-! ## Names -/

theorem name?_push {v : Viewpoint} (h : c.positions.get? v.id = none) :
    (c.push v h).name? x = if x = v.id then v.name else c.name? x := by
  by_cases hx : x = v.id
  · have hmem : v ∈ (c.push v h).entries := by simp [push]
    rw [if_pos hx, hx, name?_of_mem hmem]
  · rw [if_neg hx]
    apply congrArg (Option.bind · _)
    apply Option.ext
    intro w
    rw [find?_eq_some_iff, find?_eq_some_iff]
    simp only [push, List.mem_append, List.mem_singleton]
    constructor
    · rintro ⟨hw | rfl, rfl⟩
      · exact ⟨hw, rfl⟩
      · exact absurd rfl hx
    · exact fun h => ⟨.inl h.1, h.2⟩

theorem name?_nameAt {i : Nat} (hi : c.positions.get? id = some i) (name : Option String) :
    (c.nameAt i name).name? x = if x = id then (c.name? x).or name else c.name? x := by
  unfold name? find? nameAt
  by_cases hx : x = id
  · subst hx
    obtain ⟨v, hv, -⟩ := Option.map_eq_some_iff.1 ((c.indexed _ _).1 hi)
    simp only [hi, hv, Option.bind_some, List.getElem?_modify_eq, Option.map_eq_map, Option.map_some, if_true]
  · rw [if_neg hx]
    cases hj : c.positions.get? x with
    | none => simp only [Option.bind_none]
    | some j =>
      -- one position holds one id
      have hne : i ≠ j := by
        rintro rfl
        have h := (c.indexed _ _).1 hi
        rw [(c.indexed _ _).1 hj] at h
        exact hx (Option.some.inj h)
      simp only [Option.bind_some, List.getElem?_modify, if_neg hne, Option.map_eq_map, Option.map_id']

/-- A tag fills in the name of its own id, if that has none. -/
theorem name?_add (c : ViewpointCatalog) (id : String) (name : Option String) :
    (c.add id name).name? x =
      if Text.nonBlank? id = some x then (c.name? x).or (name.bind Text.nonBlank?) else c.name? x := by
  unfold add
  cases Text.nonBlank? id with
  | none => rw [if_neg (by simp)]
  | some id =>
    simp only [Option.some.injEq, eq_comm (a := id)]
    split
    · next i hi => exact name?_nameAt hi _
    · next hno =>
      rw [name?_push]
      split
      · next hx =>
        subst hx
        rw [name?_of_not_mem (get?_positions_eq_none.1 hno), Option.none_or]
      · rfl

/-! ## Lists of tags -/

/-- The catalog that a list of ids and names builds. -/
def ofTags (tags : List (String × Option String)) : ViewpointCatalog := tags.foldl (fun c t => c.add t.1 t.2) {}

/-- The first name that a list of tags gives to an id. Blank names are none. -/
def firstName? (tags : List (String × Option String)) (id : String) : Option String :=
  tags.findSome? fun t => if Text.nonBlank? t.1 = some id then t.2.bind Text.nonBlank? else none

/-- The ids in a list of tags, at their first occurrences. Blank ids are none. -/
def firstIds (tags : List (String × Option String)) : List String :=
  (tags.filterMap fun t => Text.nonBlank? t.1).eraseDups

theorem ids_foldl_add (c : ViewpointCatalog) (tags : List (String × Option String)) :
    (tags.foldl (fun c t => c.add t.1 t.2) c).ids =
      (tags.filterMap fun t => Text.nonBlank? t.1).foldl addId c.ids := by
  induction tags generalizing c with
  | nil => rfl
  | cons t tags ih =>
    rw [List.foldl_cons, ih, ids_add, List.filterMap_cons]
    cases Text.nonBlank? t.1 with
    | none => rfl
    | some id => rfl

theorem name?_foldl_add (c : ViewpointCatalog) (tags : List (String × Option String)) :
    (tags.foldl (fun c t => c.add t.1 t.2) c).name? x = (c.name? x).or (firstName? tags x) := by
  induction tags generalizing c with
  | nil => rw [List.foldl_nil, firstName?, List.findSome?_nil, Option.or_none]
  | cons t tags ih =>
    rw [List.foldl_cons, ih, name?_add, firstName?, firstName?, List.findSome?_cons]
    by_cases ht : Text.nonBlank? t.1 = some x
    · simp only [if_pos ht]
      cases t.2.bind Text.nonBlank? with
      | none => rw [Option.or_none]
      | some name => rw [Option.or_assoc, Option.some_or]
    · simp only [if_neg ht]

theorem ids_ofTags (tags : List (String × Option String)) : (ofTags tags).ids = firstIds tags := by
  rw [ofTags, ids_foldl_add]
  exact foldl_addId_nil _

theorem name?_ofTags (tags : List (String × Option String)) : (ofTags tags).name? x = firstName? tags x := by
  rw [ofTags, name?_foldl_add]
  exact Option.none_or

theorem nonBlank?_of_firstName? {tags : List (String × Option String)} {name : String}
    (h : firstName? tags x = some name) : Text.nonBlank? name = some name := by
  obtain ⟨t, -, ht⟩ := List.exists_of_findSome?_eq_some h
  split at ht
  · obtain ⟨raw, -, hraw⟩ := Option.bind_eq_some_iff.1 ht
    exact Text.nonBlank?_self hraw
  · cases ht

/-! ## Catalogs that are added to others -/

/-- Ids that are added a second time are listed already. -/
theorem foldl_addId_eraseDups {ids : List String} (h : ids.Nodup) (new : List String) :
    new.eraseDups.foldl addId ids = new.foldl addId ids := by
  rw [← foldl_addId_nil]
  induction new using List.reverseRecOn with
  | nil => rfl
  | append_singleton new id ih =>
    have hfirst : id ∈ new.foldl addId [] ↔ id ∈ new := by
      simp [(Collected.foldl_addId [] new List.nodup_nil).2]
    have hall : id ∈ new.foldl addId ids ↔ id ∈ ids ∨ id ∈ new := (Collected.foldl_addId ids new h).2 id
    simp only [List.foldl_append, List.foldl_cons, List.foldl_nil]
    by_cases hid : id ∈ new
    · rw [addId, if_pos (List.contains_iff_mem.2 (hfirst.2 hid)), ih, addId,
        if_pos (List.contains_iff_mem.2 (hall.2 (.inr hid)))]
    · rw [addId, if_neg (mt List.contains_iff_mem.1 (mt hfirst.1 hid)), List.foldl_append, ih]
      rfl

theorem built_ofTags (tags : List (String × Option String)) : (ofTags tags).Built :=
  Built.foldl (fun _ t hc => hc.add t.1 t.2) .empty tags

/-- A catalog hands on the names that it has, if none of them is blank or can be trimmed. -/
theorem name?_extend (c : ViewpointCatalog) (hids : ∀ v ∈ d.entries, Text.nonBlank? v.id = some v.id)
    (hnames : ∀ v ∈ d.entries, v.name.bind Text.nonBlank? = v.name) :
    (c.extend d).name? x = (c.name? x).or (d.name? x) := by
  let handed := d.entries.map fun v => (v.id, v.name)
  have hextend : c.extend d = handed.foldl (fun c t => c.add t.1 t.2) c := by
    rw [extend, List.foldl_map]
  rw [hextend, name?_foldl_add]
  apply congrArg
  cases hname : firstName? handed x with
  | some name =>
    obtain ⟨t, ht, hfound⟩ := List.exists_of_findSome?_eq_some hname
    obtain ⟨v, hv, rfl⟩ := List.mem_map.1 ht
    rw [hids v hv, hnames v hv] at hfound
    split at hfound
    · next hid =>
      rw [← Option.some.inj hid, name?_of_mem hv, hfound]
    · cases hfound
  | none =>
    rw [firstName?, List.findSome?_eq_none_iff] at hname
    by_cases hx : x ∈ d.ids
    · obtain ⟨v, hv, rfl⟩ := List.mem_map.1 hx
      have hnone := hname _ (List.mem_map_of_mem hv)
      rw [if_pos (hids v hv), hnames v hv] at hnone
      rw [name?_of_mem hv, hnone]
    · rw [name?_of_not_mem hx]

/-- Lists of tags are joined where their catalogs are. -/
theorem extend_ofTags (tags more : List (String × Option String)) :
    (ofTags tags).extend (ofTags more) = ofTags (tags ++ more) := by
  have happend : ofTags (tags ++ more) = more.foldl (fun c t => c.add t.1 t.2) (ofTags tags) := by
    rw [ofTags, List.foldl_append, ← ofTags]
  rw [happend]
  apply eq_of_ids_of_name?
  · rw [ids_extend _ (built_ofTags more), ids_foldl_add, ids_ofTags more, firstIds,
      foldl_addId_eraseDups (nodup_ids _)]
  · intro id
    have hids : ∀ v ∈ (ofTags more).entries, Text.nonBlank? v.id = some v.id := fun v hv =>
      (built_ofTags more).nonBlank?_eq v.id (List.mem_map_of_mem hv)
    have hnames : ∀ v ∈ (ofTags more).entries, v.name.bind Text.nonBlank? = v.name := by
      intro v hv
      have hname := (name?_of_mem hv).symm.trans (name?_ofTags more)
      cases h : v.name with
      | none => rfl
      | some name => exact nonBlank?_of_firstName? (hname.symm.trans h)
    rw [name?_extend _ hids hnames, name?_foldl_add, name?_ofTags more]

/-! ## What a catalog tells of its tags -/

/-- What a catalog says of a list of tags. -/
structure Tells (c : ViewpointCatalog) (tags : List (String × Option String)) : Prop where
  entries : c.entries = (firstIds tags).map fun id => ⟨id, firstName? tags id⟩
  contains_iff : ∀ id, c.contains id = true ↔ ∃ v ∈ c.entries, v.id = id
  find?_iff : ∀ id v, c.find? id = some v ↔ v ∈ c.entries ∧ v.id = id
  position_iff : ∀ id i, c.positions.get? id = some i ↔ ∃ v, c.entries[i]? = some v ∧ v.id = id

/-- What is read from a catalog is determined by the list of its tags, and a catalog that is added to another one
counts as the list that built it. -/
theorem determined_by_tags (tags more : List (String × Option String)) :
    (ofTags tags).Tells tags ∧ (ofTags tags).extend (ofTags more) = ofTags (tags ++ more) := by
  refine ⟨⟨?_, ?_, ?_, ?_⟩, extend_ofTags tags more⟩
  · rw [entries_eq, ids_ofTags]
    exact List.map_congr_left fun id _ => by rw [name?_ofTags]
  · intro id
    rw [contains_iff, ids, List.mem_map]
  · exact fun id v => find?_eq_some_iff
  · intro id i
    rw [(ofTags tags).indexed, Option.map_eq_some_iff]

example : (ofTags [(" a ", none), ("", some "None"), ("b", some " "), ("a", some "A. "), ("a", some "B.")]).entries =
    [⟨"a", some "A."⟩, ⟨"b", none⟩] := by decide

end StoryPress.ViewpointCatalog
