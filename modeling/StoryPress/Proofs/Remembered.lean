import StoryPress.Bundle.Manifest
import StoryPress.Proofs.Beside

/-!
# Manifests that are read again

A manifest keeps the time of the one before it if that says the same otherwise.

* `Json.sortFields_eq`: the fields of a value are those of a map in key order;
* `ExportManifest.reusableTime?_self`: a manifest that is read back as it was written gives its time;
* `ExportManifest.timeFor_self`: so a manifest made again gets the time of the first.
-/

namespace StoryPress

namespace OrderedMap

section
variable {α β : Type} [Ord α] [Std.TransOrd α] [Std.LawfulEqOrd α]

theorem erase_insert (m : OrderedMap α β) (key k : α) (value : β) :
    (m.insert k value).erase key = if compare k key = .eq then m.erase key else (m.erase key).insert k value := by
  refine ext_get? fun j => ?_
  split
  · next hk =>
    obtain rfl := Std.LawfulEqCmp.eq_of_compare hk
    simp only [get?_erase, get?_insert]
    split <;> simp_all
  · next hk =>
    simp only [get?_erase, get?_insert]
    split
    · next hj =>
      obtain rfl := Std.LawfulEqCmp.eq_of_compare hj
      rw [if_neg]
      exact fun hjk => hk (Std.LawfulEqCmp.eq_of_compare hjk ▸ hj)
    · rfl

/-- Erasing a key from a map that is made of a list leaves the map of the rest of the list. -/
theorem erase_ofList (key : α) (l : List (α × β)) :
    (ofList l).erase key = ofList (l.filter fun p => compare p.1 key != .eq) := by
  have fold (l : List (α × β)) : ∀ m : OrderedMap α β, (l.foldl (fun m p => m.insert p.1 p.2) m).erase key =
      (l.filter fun p => compare p.1 key != .eq).foldl (fun m p => m.insert p.1 p.2) (m.erase key) := by
    induction l with
    | nil => exact fun _ => rfl
    | cons p l ih =>
      intro m
      rw [List.foldl_cons, ih, erase_insert]
      by_cases hp : compare p.1 key = .eq <;> simp [hp]
  exact fold l ∅

/-- The last pair of a key counts. -/
theorem get?_ofList_of_last {before after : List (α × β)} {key : α} {value : β}
    (h : key ∉ after.map (·.1)) : (ofList (before ++ (key, value) :: after)).get? key = some value := by
  have fold (l : List (α × β)) (hl : key ∉ l.map (·.1)) : ∀ m : OrderedMap α β,
      (l.foldl (fun m p => m.insert p.1 p.2) m).get? key = m.get? key := by
    induction l with
    | nil => exact fun _ => rfl
    | cons p l ih =>
      intro m
      rw [List.map_cons, List.mem_cons, not_or] at hl
      rw [List.foldl_cons, ih hl.2, get?_insert, if_neg fun he => hl.1 (Std.LawfulEqCmp.eq_of_compare he)]
  rw [ofList, List.foldl_append, List.foldl_cons, fold after h, get?_insert,
    if_pos Std.ReflCmp.compare_self]

end

/-- The value that is looked up among the entries. -/
theorem lookup_entries {β : Type} (m : OrderedMap String β) (key : String) : m.entries.lookup key = m.get? key := by
  unfold get?
  induction m.entries with
  | nil => rfl
  | cons p l ih =>
    obtain ⟨k, v⟩ := p
    by_cases hk : key = k
    · subst hk
      simp
    · have hne : compare k key ≠ .eq := fun he => hk (Std.LawfulEqCmp.eq_of_compare he).symm
      simp [List.lookup_cons, beq_false_of_ne hk, hne, ih]

/-- The entries of other keys. -/
theorem filter_entries {β : Type} (m : OrderedMap String β) (key : String) :
    m.entries.filter (fun (k, _) => k != key) = (m.erase key).entries := by
  refine List.filter_congr fun p _ => ?_
  rw [Bool.eq_iff_iff]
  simp

end OrderedMap

namespace Json

theorem insertField_eq (key : String) (value : Json) (fields : List (String × Json)) :
    insertField key value fields = OrderedMap.insertEntry key value fields := by
  induction fields with
  | nil => rfl
  | cons p rest ih =>
    obtain ⟨k, v⟩ := p
    simp only [insertField, OrderedMap.insertEntry, ih]
    have hcompare : compare key k = if key < k then .lt else if key = k then .eq else .gt := rfl
    rw [hcompare]
    by_cases hk : key = k
    · subst hk
      simp
    · by_cases hlt : key < k <;> simp [hk, hlt]

theorem foldl_insertField (fields : List (String × Json)) (m : OrderedMap String Json) :
    fields.foldl (fun sorted p => insertField p.1 p.2 sorted) m.entries =
      (fields.foldl (fun m p => m.insert p.1 p.2) m).entries := by
  induction fields generalizing m with
  | nil => rfl
  | cons p rest ih =>
    rw [List.foldl_cons, List.foldl_cons, ← ih, insertField_eq]
    rfl

/-- The fields of a value are those of a map in key order. -/
theorem sortFields_eq (fields : List (String × Json)) : sortFields fields = (OrderedMap.ofList fields).entries :=
  foldl_insertField fields ∅

theorem normalizeFields_eq (fields : List (String × Json)) :
    normalizeFields fields = fields.map fun (k, v) => (k, normalize v) := by
  induction fields with
  | nil => rfl
  | cons p rest ih => rw [List.map_cons, ← ih, normalizeFields]

theorem keys_normalizeFields (fields : List (String × Json)) :
    (normalizeFields fields).map (·.1) = fields.map (·.1) := by
  rw [normalizeFields_eq, List.map_map]
  rfl

end Json

namespace ExportManifest

variable {m : ExportManifest} {time : String}

theorem timeKey_not_mem (m : ExportManifest) :
    timeKey ∉ m.fieldsBefore.map (·.1) ∧ timeKey ∉ m.fieldsAfter.map (·.1) := by
  simp [timeKey, fieldsBefore, fieldsAfter]

/-- The fields of a manifest with a time, in key order. -/
def timed (m : ExportManifest) (time : String) : OrderedMap String Json :=
  .ofList (Json.normalizeFields m.fieldsBefore ++ (timeKey, .string time) :: Json.normalizeFields m.fieldsAfter)

theorem normalize_toJson (m : ExportManifest) (time : String) :
    Json.normalize (m.toJson time) = .object (m.timed time).entries := by
  rw [toJson, Json.normalize, Json.sortFields_eq, timed]
  simp only [Json.normalizeFields_eq, List.map_append, List.map_cons, List.append_assoc, List.singleton_append,
    Json.normalize]

theorem get?_timed (m : ExportManifest) (time : String) : (m.timed time).get? timeKey = some (.string time) := by
  refine OrderedMap.get?_ofList_of_last ?_
  rw [Json.keys_normalizeFields]
  exact m.timeKey_not_mem.2

/-- Without the time the fields say the rest. -/
theorem substance_eq_erase (m : ExportManifest) (time : String) :
    m.substance = .object ((m.timed time).erase timeKey).entries := by
  have hother {fields : List (String × Json)} (hkeys : timeKey ∉ fields.map (·.1)) :
      (Json.normalizeFields fields).filter (fun p => compare p.1 timeKey != .eq) = Json.normalizeFields fields := by
    rw [← Json.keys_normalizeFields] at hkeys
    refine List.filter_eq_self.2 fun p hp => bne_iff_ne.2 fun he => hkeys ?_
    exact Std.LawfulEqCmp.eq_of_compare he ▸ List.mem_map_of_mem hp
  rw [timed, OrderedMap.erase_ofList, List.filter_append, List.filter_cons, hother m.timeKey_not_mem.1,
    hother m.timeKey_not_mem.2]
  simp [substance, Json.normalize, Json.sortFields_eq, Json.normalizeFields_eq]

/-- A manifest that is read back as it was written gives its time. -/
theorem reusableTime?_self {text : String}
    (h : Json.parse Json.Tree.value text = .ok (Json.normalize (m.toJson time))) :
    m.reusableTime? text = some time := by
  have hfield : (Json.object (m.timed time).entries).field? timeKey = some (.string time) := by
    simp only [Json.field?, Json.asObject?, Option.bind_some, OrderedMap.lookup_entries, get?_timed]
  rw [normalize_toJson] at h
  unfold reusableTime?
  rw [h]
  simp only [hfield, OrderedMap.filter_entries, m.substance_eq_erase time, if_true]

/-- A manifest made again gets the time of the first. -/
theorem timeFor_self {earlier : Option String} {pinned : Option Timestamp} {now now' : Timestamp} {text : String}
    (h : Json.parse Json.Tree.value text = .ok (Json.normalize (m.toJson (m.timeFor earlier pinned now)))) :
    m.timeFor (some text) pinned now' = m.timeFor earlier pinned now := by
  cases pinned with
  | some t => rfl
  | none =>
    have hreuse := reusableTime?_self h
    simp only [timeFor, Option.bind_some, hreuse, Option.getD_some]

end ExportManifest

end StoryPress
