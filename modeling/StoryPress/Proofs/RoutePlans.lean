import Mathlib.Data.List.DropRight
import StoryPress.Proofs.Placements

/-!
# Complete route plans

A catalog of viewpoints is only changed by additions and by names. It lists trimmed ids, each once, in the order in
which they were first met, and so does the plan that is made of the catalogs of a sequence.

* `Built`: the catalogs that additions and names build; those of scenes and placements are among them;
* `ids_extend`: what a catalog lists when another one is added to it;
* `viewpoints_routesOf`: the viewpoints that get a route, in order;
* `exact_ofSequence`: what a plan says of its sequence.
-/

namespace StoryPress

open Collected (addId)

/-! ## Trimmed text -/

theorem Text.trim_trim (s : String) : Text.trim (Text.trim s) = Text.trim s := by
  let front := s.toList.dropWhile Text.isBlank
  let kept := front.rdropWhile Text.isBlank
  have hstart : kept.dropWhile Text.isBlank = kept := by
    rw [List.dropWhile_eq_self_iff]
    intro hlen
    -- what is kept begins as the text without its leading white space does
    obtain ⟨rest, hfront⟩ : kept <+: front := List.rdropWhile_prefix _ _
    have hpos : 0 < front.length := by
      rw [← hfront, List.length_append]
      omega
    have hhead : kept[0] = front[0] := by
      simp only [← hfront, List.getElem_append_left hlen]
    rw [hhead]
    exact List.dropWhile_eq_self_iff.1 (List.dropWhile_idempotent _ _) hpos
  have hkept : Text.trimBoth Text.isBlank s.toList = kept := rfl
  have hagain : Text.trimBoth Text.isBlank kept = (kept.dropWhile Text.isBlank).rdropWhile Text.isBlank := rfl
  rw [Text.trim, Text.trim, String.toList_ofList, hkept, hagain, hstart, List.rdropWhile_idempotent]

theorem Text.trim_of_nonBlank? {s t : String} (h : Text.nonBlank? s = some t) : Text.trim s = t := by
  unfold Text.nonBlank? at h
  dsimp only at h
  split at h
  · cases h
  · exact Option.some.inj h

theorem Text.nonBlank?_self {s t : String} (h : Text.nonBlank? s = some t) : Text.nonBlank? t = some t := by
  have htrimmed : Text.nonBlank? (Text.trim s) = Text.nonBlank? s := by
    rw [Text.nonBlank?, Text.nonBlank?, Text.trim_trim]
  rw [← Text.trim_of_nonBlank? h, htrimmed, h, Text.trim_of_nonBlank? h]

theorem Text.nonBlank?_of_not_blank {s : String} (h : Text.isBlankText s = false) :
    Text.nonBlank? s = some (Text.trim s) := by
  have hne : Text.trim s ≠ "" := by
    intro hempty
    have hkept : (s.toList.dropWhile Text.isBlank).rdropWhile Text.isBlank = [] :=
      String.ofList_injective hempty
    rw [List.rdropWhile_eq_nil_iff] at hkept
    obtain ⟨c, hc, hblank⟩ := List.all_eq_false.1 h
    -- the first character that is not blank is kept
    have hmem : c ∈ s.toList.dropWhile Text.isBlank := by
      rw [← List.takeWhile_append_dropWhile (p := Text.isBlank) (l := s.toList)] at hc
      exact (List.mem_append.1 hc).resolve_left fun hfront => hblank (List.mem_takeWhile_imp hfront)
    exact hblank (hkept c hmem)
  rw [Text.nonBlank?, if_neg (mt String.isEmpty_iff.1 hne)]

/-- Ids that are added one by one are listed at their first occurrences. -/
theorem foldl_addId_nil (ids : List String) : ids.foldl addId [] = ids.eraseDups := by
  induction ids using List.reverseRecOn with
  | nil => rfl
  | append_singleton ids id ih =>
    rw [List.foldl_append, ih, List.eraseDups_append]
    by_cases h : id ∈ ids
    · simp [addId, List.removeAll, h]
    · simp [addId, List.removeAll, h, List.eraseDups_cons]

/-! ## Catalogs -/

namespace ViewpointCatalog

variable {c : ViewpointCatalog}

theorem get?_positions {id : String} {i : Nat} : c.positions.get? id = some i ↔ c.ids[i]? = some id := by
  rw [c.indexed, ids, List.getElem?_map]

theorem get?_positions_eq_none {id : String} : c.positions.get? id = none ↔ id ∉ c.ids := by
  rw [List.mem_iff_getElem?, Option.eq_none_iff_forall_ne_some]
  simp only [ne_eq, get?_positions, not_exists]

theorem contains_iff {id : String} : c.contains id = true ↔ id ∈ c.ids := by
  rw [contains, OrderedMap.contains, Option.isSome_iff_ne_none, ne_eq, get?_positions_eq_none, not_not]

theorem ids_push (c : ViewpointCatalog) (v : Viewpoint) (h : c.positions.get? v.id = none) :
    (c.push v h).ids = c.ids ++ [v.id] := by
  simp only [ids, push, List.map_append, List.map_cons, List.map_nil]

theorem ids_nameAt (c : ViewpointCatalog) (i : Nat) (name : Option String) : (c.nameAt i name).ids = c.ids := by
  apply List.ext_getElem?
  intro j
  simp only [ids, nameAt, List.getElem?_map, List.getElem?_modify]
  split
  · simp only [Option.map_map, Function.comp_def, Option.map_eq_map]
  · rw [Option.map_eq_map, Option.map_id']

/-- Names add no viewpoint. -/
theorem ids_nameFrom (c : ViewpointCatalog) (w : World) : (c.nameFrom w).ids = c.ids := by
  unfold nameFrom
  induction w.povs generalizing c with
  | nil => rfl
  | cons t tags ih =>
    rw [List.foldl_cons, ih]
    split
    · exact ids_nameAt c _ _
    · rfl

/-- A catalog lists what is added to it under the trimmed id, unless that is listed or blank. -/
theorem ids_add (c : ViewpointCatalog) (id : String) (name : Option String) :
    (c.add id name).ids = (Text.nonBlank? id).toList.foldl addId c.ids := by
  unfold add
  cases Text.nonBlank? id with
  | none => rfl
  | some id =>
    simp only [Option.toList_some, List.foldl_cons, List.foldl_nil, addId]
    split
    · next i hi =>
      have hlisted : id ∈ c.ids := List.mem_of_getElem? (get?_positions.1 hi)
      rw [ids_nameAt, if_pos (List.contains_iff_mem.2 hlisted)]
    · next hno =>
      have hnew : id ∉ c.ids := get?_positions_eq_none.1 hno
      rw [ids_push, if_neg (mt List.contains_iff_mem.1 hnew)]

/-- The catalogs that are built by additions and by names. -/
inductive Built : ViewpointCatalog → Prop where
  | empty : Built {}
  | add {c : ViewpointCatalog} (h : Built c) (id : String) (name : Option String) : Built (c.add id name)
  | nameFrom {c : ViewpointCatalog} (h : Built c) (w : World) : Built (c.nameFrom w)

namespace Built

/-- The ids of a catalog are trimmed. -/
theorem nonBlank?_eq (h : c.Built) : ∀ id ∈ c.ids, Text.nonBlank? id = some id := by
  induction h with
  | empty => simp [ids]
  | @add c h id name ih =>
    intro x hx
    rw [ids_add] at hx
    cases ht : Text.nonBlank? id with
    | none =>
      rw [ht] at hx
      exact ih x hx
    | some t =>
      rw [ht, Option.toList_some, List.foldl_cons, List.foldl_nil, Collected.mem_addId] at hx
      cases hx with
      | inl hx => exact ih x hx
      | inr hx => exact hx ▸ Text.nonBlank?_self ht
  | nameFrom h w ih =>
    rw [ids_nameFrom]
    exact ih

theorem addTags (h : c.Built) (tags : List ViewpointTag) : (tags.foldl addTag c).Built := by
  induction tags generalizing c with
  | nil => exact h
  | cons t tags ih => exact ih (h.add t.id t.name?)

theorem addValue (h : c.Built) (v : Json) : (c.addValue v).Built := h.addTags _

theorem addFields (h : c.Built) (v : Json) : (c.addFields v).Built := by
  unfold ViewpointCatalog.addFields
  dsimp only
  split
  · apply addValue
    split
    · exact h.add _ _
    · exact h.addValue _
    · exact h
  · split
    · exact h.add _ _
    · exact h.addValue _
    · exact h

theorem foldl {α : Type} {f : ViewpointCatalog → α → ViewpointCatalog} (hf : ∀ c x, c.Built → (f c x).Built)
    (h : c.Built) (xs : List α) : (xs.foldl f c).Built := by
  induction xs generalizing c with
  | nil => exact h
  | cons x xs ih => exact ih (hf c x h)

theorem ofScene (s : Scene) : (ViewpointCatalog.ofScene s).Built := by
  unfold ViewpointCatalog.ofScene
  have hpovs := foldl (fun _ v hc => hc.addValue v) (foldl (fun _ v hc => hc.addValue v) .empty s.pov.toList) s.povs
  have hmetadata := foldl (fun _ v hc => hc.addFields v) hpovs s.metadata.toList
  have hnodes := foldl (fun _ node hc => foldl (fun _ v hc => hc.addFields v) (hc.addFields node)
    (node.field? "content").toList) hmetadata s.nodes
  exact foldl (fun _ v hc => hc.addFields v) hnodes s.dialogue

theorem ofPlacement (p : Placement) : (ViewpointCatalog.ofPlacement p).Built := addTags .empty p.tags

end Built

/-- A catalog is extended by the ids of another one that it does not list yet, in their order. -/
theorem ids_extend (c : ViewpointCatalog) {other : ViewpointCatalog} (h : other.Built) :
    (c.extend other).ids = other.ids.foldl addId c.ids := by
  have htrimmed : ∀ v ∈ other.entries, Text.nonBlank? v.id = some v.id := by
    intro v hv
    exact h.nonBlank?_eq v.id (List.mem_map_of_mem hv)
  clear h
  unfold extend
  change _ = (other.entries.map (·.id)).foldl addId c.ids
  generalize other.entries = entries at htrimmed ⊢
  induction entries generalizing c with
  | nil => rfl
  | cons v vs ih =>
    have hadd : (c.add v.id v.name).ids = addId c.ids v.id := by
      rw [ids_add, htrimmed v (by simp)]
      rfl
    have hrest := ih (c.add v.id v.name) fun u hu => htrimmed u (by simp [hu])
    rw [hadd] at hrest
    exact hrest

theorem ids_foldl_extend {α : Type} {f : α → ViewpointCatalog} {xs : List α} (h : ∀ x ∈ xs, (f x).Built)
    (c : ViewpointCatalog) :
    (xs.foldl (fun c x => c.extend (f x)) c).ids = (xs.flatMap fun x => (f x).ids).foldl addId c.ids := by
  induction xs generalizing c with
  | nil => rfl
  | cons x xs ih =>
    rw [List.foldl_cons, ih (fun y hy => h y (by simp [hy])), ids_extend c (h x (by simp)), List.flatMap_cons,
      List.foldl_append]

end ViewpointCatalog

/-- The viewpoints that a placement carries: its own list, or that of its scene where it has none. -/
def PlacedScene.carried (p : PlacedScene) : List String := if p.placed.ids = [] then p.own.ids else p.placed.ids

theorem PlacedScene.carries_iff {p : PlacedScene} {id : String} : p.carries id = true ↔ id ∈ p.carried := by
  have hempty : p.placed.isEmpty = true ↔ p.placed.ids = [] := by
    simp [ViewpointCatalog.isEmpty, ViewpointCatalog.ids]
  unfold carries carried
  by_cases h : p.placed.ids = []
  · rw [if_pos (hempty.2 h), if_pos h, ViewpointCatalog.contains_iff]
  · rw [if_neg (mt hempty.1 h), if_neg h, ViewpointCatalog.contains_iff]

/-! ## Plans -/

namespace RoutePlan

/-- The viewpoints of a sequence at their first occurrences: those of all scenes, then those of all placements. -/
def met (sequence : List PlacedScene) : List String :=
  (sequence.flatMap (·.own.ids) ++ sequence.flatMap (·.placed.ids)).eraseDups

theorem ids_catalogOf {sequence : List PlacedScene} (h : ∀ p ∈ sequence, p.own.Built ∧ p.placed.Built)
    (world : Option World) : (catalogOf sequence world).ids = met sequence := by
  have hworld (c : ViewpointCatalog) : (world.toList.foldl ViewpointCatalog.nameFrom c).ids = c.ids := by
    cases world with
    | none => rfl
    | some w => exact ViewpointCatalog.ids_nameFrom c w
  unfold catalogOf met
  dsimp only
  rw [hworld, ViewpointCatalog.ids_foldl_extend (fun p hp => (h p hp).2),
    ViewpointCatalog.ids_foldl_extend (fun p hp => (h p hp).1), ← List.foldl_append]
  exact foldl_addId_nil _

theorem nodup_met (sequence : List PlacedScene) : (met sequence).Nodup := by
  unfold met
  rw [← foldl_addId_nil]
  exact (Collected.foldl_addId [] _ List.nodup_nil).1

theorem mem_met_of_carried {sequence : List PlacedScene} {p : PlacedScene} (hp : p ∈ sequence) {id : String}
    (h : id ∈ p.carried) : id ∈ met sequence := by
  rw [met, List.mem_eraseDups, List.mem_append, List.mem_flatMap, List.mem_flatMap]
  unfold PlacedScene.carried at h
  by_cases hplaced : p.placed.ids = []
  · rw [if_pos hplaced] at h
    exact .inl ⟨p, hp, h⟩
  · rw [if_neg hplaced] at h
    exact .inr ⟨p, hp, h⟩

/-- The viewpoints with a route are those that some placement carries, in the order of the catalog. -/
theorem viewpoints_routesOf (sequence : List PlacedScene) (vs : List Viewpoint) (slugs : List String)
    (book : LabelBook) : (routesOf sequence vs slugs book).1.map (·.viewpoint) =
      (vs.map (·.id)).filter fun id => sequence.any (·.carries id) := by
  induction vs generalizing slugs book with
  | nil => rfl
  | cons v vs ih =>
    simp only [routesOf, List.map_cons]
    split
    · next hnone =>
      have hany : sequence.any (·.carries v.id) ≠ true := by
        intro hsome
        obtain ⟨p, hp, hc⟩ := List.any_eq_true.1 hsome
        exact List.filter_eq_nil_iff.1 hnone p hp hc
      rw [List.filter_cons, if_neg hany, ih]
    · next members hne =>
      have hany : sequence.any (·.carries v.id) = true := by
        obtain ⟨p, hp⟩ := List.exists_mem_of_ne_nil _ hne
        exact List.any_eq_true.2 ⟨p, List.mem_of_mem_filter hp, (List.mem_filter.1 hp).2⟩
      rw [List.filter_cons, if_pos hany, List.map_cons, ih]

/-- What a plan says of the sequence, the labels in use, the mode, the flag and the world that it is made of. -/
structure Exact (sequence : List PlacedScene) (book : LabelBook) (mode : RouteMode) (switchMenu : Bool)
    (world : Option World) (plan : RoutePlan) : Prop where
  viewpoints_eq : plan.routes.map (·.viewpoint) = (met sequence).filter fun id => sequence.any (id ∈ ·.carried)
  viewpoints_nodup : (plan.routes.map (·.viewpoint)).Nodup
  mem_viewpoints_iff : ∀ id, id ∈ plan.routes.map (·.viewpoint) ↔ ∃ p ∈ sequence, id ∈ p.carried
  sceneIds_eq : ∀ r ∈ plan.routes, r.sceneIds = (sequence.filter (r.viewpoint ∈ ·.carried)).map (·.sceneId)
  labels_eq : ∀ r ∈ plan.routes, r.labels = (sequence.filter (r.viewpoint ∈ ·.carried)).map (·.label)
  slugs_nodup : (plan.routes.map (·.slug)).Nodup
  slug_ne : ∀ r ∈ plan.routes, r.slug ≠ ""
  entries_nodup : (plan.routes.map (·.entry)).Nodup
  entry_new : ∀ r ∈ plan.routes, r.entry ∉ book.used
  menu_iff : plan.menu = true ↔
    2 ≤ plan.routes.length ∧ switchMenu = true ∧ (mode = .master ∨ mode = .both ∨ mode = .auto)
  forks_iff : plan.forks = true ↔ 2 ≤ plan.routes.length ∧ (mode = .forks ∨ mode = .both ∨ mode = .auto)
  /-- The default of the world is taken if it has a route. -/
  preferred_of_default : ∀ id, world.bind (·.defaultViewpoint) = some id → id ∈ plan.routes.map (·.viewpoint) →
    plan.preferred = some id
  preferred_of_no_default : (∀ id, world.bind (·.defaultViewpoint) = some id → id ∉ plan.routes.map (·.viewpoint)) →
    plan.preferred = (plan.routes.map (·.viewpoint)).head?
  preferred_eq_none_iff : plan.preferred = none ↔ plan.routes = []

section
variable {sequence : List PlacedScene} {book : LabelBook} {mode : RouteMode} {switchMenu : Bool}
  {world : Option World}

variable (sequence book mode switchMenu world) in
theorem routes_ofSequence : (ofSequence sequence book mode switchMenu world).routes =
    (routesOf sequence (catalogOf sequence world).entries [] book).1 := rfl

theorem menu_iff : (ofSequence sequence book mode switchMenu world).menu = true ↔
    2 ≤ (ofSequence sequence book mode switchMenu world).routes.length ∧ switchMenu = true ∧
      (mode = .master ∨ mode = .both ∨ mode = .auto) := by
  have hmode : mode.wantsMenu = true ↔ mode = .master ∨ mode = .both ∨ mode = .auto := by
    cases mode <;> simp [RouteMode.wantsMenu]
  rw [← hmode]
  simp [ofSequence, and_assoc]

theorem forks_iff : (ofSequence sequence book mode switchMenu world).forks = true ↔
    2 ≤ (ofSequence sequence book mode switchMenu world).routes.length ∧
      (mode = .forks ∨ mode = .both ∨ mode = .auto) := by
  have hmode : mode.wantsForks = true ↔ mode = .forks ∨ mode = .both ∨ mode = .auto := by
    cases mode <;> simp [RouteMode.wantsForks]
  rw [← hmode]
  simp [ofSequence]

/-- The preferred viewpoint is the default of the world if it has a route, and else the first one. -/
theorem preferred_eq : (ofSequence sequence book mode switchMenu world).preferred =
    ((world.bind (·.defaultViewpoint)).filter fun id =>
      id ∈ (ofSequence sequence book mode switchMenu world).routes.map (·.viewpoint)).or
        ((ofSequence sequence book mode switchMenu world).routes.map (·.viewpoint)).head? := by
  have hany (id : String) (routes : List Route) :
      (routes.any fun r => r.viewpoint == id) = decide (id ∈ routes.map (·.viewpoint)) := by
    rw [Bool.eq_iff_iff]
    simp
  simp [ofSequence, hany, Option.orElse_eq_or, List.head?_map]

end

/-- A plan has one route for each viewpoint that is carried, with names of its own, and says no more than that. -/
theorem exact_ofSequence {sequence : List PlacedScene} (h : ∀ p ∈ sequence, p.own.Built ∧ p.placed.Built)
    (book : LabelBook) (mode : RouteMode) (switchMenu : Bool) (world : Option World) :
    Exact sequence book mode switchMenu world (ofSequence sequence book mode switchMenu world) := by
  have hcarries (id : String) : (fun p : PlacedScene => p.carries id) = fun p => decide (id ∈ p.carried) := by
    funext p
    rw [Bool.eq_iff_iff, PlacedScene.carries_iff, decide_eq_true_iff]
  have hviewpoints : (ofSequence sequence book mode switchMenu world).routes.map (·.viewpoint) =
      (met sequence).filter fun id => sequence.any (id ∈ ·.carried) := by
    rw [routes_ofSequence, viewpoints_routesOf]
    simp only [hcarries]
    rw [show (catalogOf sequence world).entries.map (·.id) = met sequence from ids_catalogOf h world]
  have hdistinct : Distinct [] book (ofSequence sequence book mode switchMenu world).routes :=
    distinct_routesOf sequence _ [] book
  have hmembers := routesOf_members sequence (catalogOf sequence world).entries [] book
  rw [← routes_ofSequence sequence book mode switchMenu world] at hmembers
  simp only [hcarries] at hmembers
  have hfirst : (ofSequence sequence book mode switchMenu world).preferred =
      ((world.bind (·.defaultViewpoint)).filter fun id =>
        id ∈ (ofSequence sequence book mode switchMenu world).routes.map (·.viewpoint)).or
          ((ofSequence sequence book mode switchMenu world).routes.map (·.viewpoint)).head? := preferred_eq
  constructor
  · exact hviewpoints
  · rw [hviewpoints]
    exact (nodup_met sequence).filter _
  · intro id
    rw [hviewpoints, List.mem_filter, List.any_eq_true]
    simp only [decide_eq_true_iff]
    constructor
    · exact fun hid => hid.2
    · rintro ⟨p, hp, hid⟩
      exact ⟨mem_met_of_carried hp hid, p, hp, hid⟩
  · exact fun r hr => (hmembers r hr).2.1
  · exact fun r hr => (hmembers r hr).1
  · exact hdistinct.slugs_nodup
  · exact fun r hr => (hdistinct.slug_named r hr).1
  · exact hdistinct.entries_nodup
  · exact hdistinct.entry_free
  · exact menu_iff
  · exact forks_iff
  · intro id hid hmem
    rw [hfirst, hid, Option.filter_some, if_pos (decide_eq_true hmem), Option.some_or]
  · intro hno
    rw [hfirst]
    cases hid : world.bind (·.defaultViewpoint) with
    | none => rfl
    | some id => rw [Option.filter_some, if_neg (mt of_decide_eq_true (hno id hid)), Option.none_or]
  · rw [hfirst, Option.or_eq_none_iff, List.head?_eq_none_iff, List.map_eq_nil_iff]
    constructor
    · exact fun hnone => hnone.2
    · intro hnone
      simp [hnone]

/-- Two ids with one slug, one of them placed in the stead of another viewpoint, and a label that is taken. -/
def collidingSequence : List PlacedScene :=
  [⟨"a", "pov_alice", (({} : ViewpointCatalog).add "alice!" none).add "Bob" none, {}⟩,
    ⟨"b", "b", ({} : ViewpointCatalog).add "Bob" none, ({} : ViewpointCatalog).add " Alice " (some "A.")⟩,
    ⟨"a", "pov_alice", (({} : ViewpointCatalog).add "alice!" none).add "Bob" none,
      ({} : ViewpointCatalog).add "Alice" none⟩]

theorem exact_of_colliding_ids :
    (∀ p ∈ collidingSequence, p.own.Built ∧ p.placed.Built) ∧
      Exact collidingSequence { used := ["pov_alice"] } .auto true (some { defaultViewpoint := some "Alice" })
        (ofSequence collidingSequence { used := ["pov_alice"] } .auto true
          (some { defaultViewpoint := some "Alice" })) := by
  have hbuilt : ∀ p ∈ collidingSequence, p.own.Built ∧ p.placed.Built := by
    have hbob := ViewpointCatalog.Built.empty.add "Bob" none
    have hboth := (ViewpointCatalog.Built.empty.add "alice!" none).add "Bob" none
    simp only [collidingSequence, List.mem_cons, List.not_mem_nil, or_false]
    rintro p (rfl | rfl | rfl)
    · exact ⟨hboth, .empty⟩
    · exact ⟨hbob, ViewpointCatalog.Built.empty.add " Alice " (some "A.")⟩
    · exact ⟨hboth, ViewpointCatalog.Built.empty.add "Alice" none⟩
  exact ⟨hbuilt, exact_ofSequence hbuilt _ _ _ _⟩

end RoutePlan

/-- The placements of an export have catalogs that are built so. -/
theorem Compilation.built_of_placed {docs : Collected} {c : Compilation} {q : PlacedScene} (h : q ∈ c.placed docs) :
    q.own.Built ∧ q.placed.Built := by
  rw [placed_eq] at h
  obtain ⟨placement, -, hplay⟩ := List.mem_filterMap.1 h
  obtain ⟨s, -, hlabel⟩ := Option.bind_eq_some_iff.1 hplay
  obtain ⟨label, -, rfl⟩ := Option.map_eq_some_iff.1 hlabel
  exact ⟨.ofScene s, .ofPlacement placement⟩

end StoryPress
