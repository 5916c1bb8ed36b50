import StoryPress.Bundle.Manifest
import StoryPress.Proofs.JsonText
import StoryPress.Proofs.Outcome
import StoryPress.Publish.Package

/-!
# Forks in a manifest

A packager reads the forks of a bundle from its manifest, and skips the rest.

* `ExportManifest.plain_toJson`: a manifest is a plain value;
* `Record.readMembers_skip`: members of other names are passed over;
* `Package.forks_of_manifest`: the forks that are read from a manifest are those it records.
-/

namespace StoryPress

open Json (Plain Tree)

/-! ## Manifests are plain -/

namespace Json

variable {n : Nat}

@[simp] theorem plain_null : Plain n .null := by cases n <;> trivial

@[simp] theorem plain_bool (b : Bool) : Plain n (.bool b) := by cases n <;> trivial

@[simp] theorem plain_string (s : String) : Plain n (.string s) := by cases n <;> trivial

@[simp] theorem plain_ofNat (k : Nat) : Plain n (.ofNat k) := by cases n <;> trivial

@[simp] theorem plain_ofText? (s : Option String) : Plain n (.ofText? s) := by cases s <;> simp [ofText?]

@[simp] theorem plain_array_map {α : Type} {f : α → Json} {xs : List α} :
    Plain (n + 1) (.array (xs.map f)) ↔ ∀ x ∈ xs, Plain n (f x) := List.forall_mem_map

@[simp] theorem plain_ofStrings (ss : List String) : Plain (n + 1) (.ofStrings ss) :=
  plain_array_map.2 fun s _ => plain_string s

@[simp] theorem plain_object_nil : Plain (n + 1) (.object []) := List.forall_mem_nil _

@[simp] theorem plain_object_cons {f : String × Json} {fields : List (String × Json)} :
    Plain (n + 1) (.object (f :: fields)) ↔ Plain n f.2 ∧ Plain (n + 1) (.object fields) := List.forall_mem_cons

@[simp] theorem plain_object_map {α : Type} {f : α → String × Json} {xs : List α} :
    Plain (n + 1) (.object (xs.map f)) ↔ ∀ x ∈ xs, Plain n (f x).2 := List.forall_mem_map

end Json

variable {n : Nat}

@[simp] theorem Route.plain_toJson (r : Route) : Plain (n + 2) r.toJson := by simp [toJson]

@[simp] theorem ForkDescriptor.plain_toJson (d : ForkDescriptor) : Plain (n + 1) d.toJson := by simp [toJson]

@[simp] theorem AssetUsage.plain_recordJson (u : AssetUsage) : Plain (n + 2) u.recordJson := by
  cases hd : u.dimensions <;> cases hf : u.fallback <;> simp [recordJson, hd, hf]

@[simp] theorem ExportWarning.plain_toJson (w : ExportWarning) : Plain (n + 1) w.toJson := by
  cases w <;> simp [toJson]

@[simp] theorem GateDecision.plain_toJson (d : GateDecision) : Plain (n + 2) d.toJson := by simp [toJson]

@[simp] theorem RatingDecision.plain_toJson (d : RatingDecision) : Plain (n + 1) d.toJson := by simp [toJson]

theorem ExportManifest.plain_toJson (m : ExportManifest) (time : String) : Plain 5 (m.toJson time) := by
  -- What is left is where the project, the timeline and the world come from: a text, or nothing.
  cases ht : m.timeline <;> cases hw : m.world <;> simp [toJson, fieldsBefore, fieldsAfter, ht, hw]
  case none.none => exact Json.plain_ofText? _
  case none.some => exact ⟨Json.plain_ofText? _, Json.plain_ofText? _⟩
  case some.none => exact ⟨Json.plain_ofText? _, Json.plain_ofText? _⟩
  case some.some => exact ⟨Json.plain_ofText? _, Json.plain_ofText? _, Json.plain_ofText? _⟩

/-! ## Records are read from their texts -/

namespace Json

/-- A list is read from the text of its items if each item is. -/
theorem Tree.list_written {α : Type} {read : Tree → Reading α} {toJson : α → Json}
    (h : ∀ x, read (written (toJson x)) = .ok x) (xs : List α) :
    list read (written (.array (xs.map toJson))) = .ok xs := by
  have hitems (xs : List α) : items read (writtenItems (xs.map toJson)) = .ok xs := by
    induction xs with
    | nil => rfl
    | cons x xs ih =>
      rw [List.map_cons, writtenItems, items, h, ih]
      rfl
  rw [written, list, hitems]
  rfl

namespace Record

variable {α : Type} {r : Record α}

/-- Members that are no fields of the record are passed over. -/
theorem readMembers_skip {fields : List (String × Json)}
    (h : ∀ m ∈ fields, r.fields.find? (·.called m.1) = none) (seen : List String) (done : α)
    (rest : List (Option String × Tree)) :
    r.readMembers seen done (Tree.writtenFields fields ++ rest) = r.readMembers seen done rest := by
  induction fields with
  | nil => rfl
  | cons m fields ih =>
    rw [Tree.writtenFields, List.cons_append, readMembers, h m (by simp)]
    dsimp only
    rw [Tree.skip_written]
    exact ih fun m' hm' => h m' (by simp [hm'])

/-- A record with one field is read from an object that holds it once, among whatever else. -/
theorem read_written {f : Field α} {start x : α} {before after : List (String × Json)} {key : String} {v : Json}
    (hkey : f.called key = true) (hother : ∀ m ∈ before ++ after, f.called m.1 = false)
    (hread : f.read (Tree.written v) start = .ok x) :
    (Record.mk [f] start).read (Tree.written (.object (before ++ (key, v) :: after))) = .ok x := by
  set r : Record α := Record.mk [f] start
  have hskip {fields : List (String × Json)} (hsub : ∀ m ∈ fields, m ∈ before ++ after) (seen : List String)
      (done : α) (rest : List (Option String × Tree)) :
      r.readMembers seen done (Tree.writtenFields fields ++ rest) = r.readMembers seen done rest :=
    readMembers_skip (fun m hm => by simp [r, hother m (hsub m hm)]) seen done rest
  have hafter := hskip (fun m hm => List.mem_append_right before hm) [f.name] x []
  rw [List.append_nil] at hafter
  have hmembers : r.readMembers [] r.start (Tree.writtenFields (before ++ (key, v) :: after)) = .ok ([f.name], x) := by
    have hfind : r.fields.find? (·.called key) = some f := by simp [r, hkey]
    have hsplit : Tree.writtenFields (before ++ (key, v) :: after) =
        Tree.writtenFields before ++ (some key, Tree.written v) :: Tree.writtenFields after := by
      simp [Tree.writtenFields_eq]
    rw [hsplit, hskip (fun m hm => List.mem_append_left after hm), readMembers, hfind]
    change (do
      let next ← f.read (Tree.written v) start
      r.readMembers [f.name] next (Tree.writtenFields after)) = _
    rw [hread]
    exact hafter
  have hfull : (r.fields.all fun g => !g.required || [f.name].contains g.name) = true := by simp [r]
  rw [Tree.written, read, hmembers]
  exact if_pos hfull

end Record

end Json

/-- The text of a descriptor is read as the descriptor. -/
theorem ForkDescriptor.read_written (d : ForkDescriptor) : record.read (Tree.written d.toJson) = .ok d := rfl

/-- Where a manifest tells the forks. -/
theorem ExportManifest.toJson_eq_forks (m : ExportManifest) (time : String) :
    ∃ before beside after, m.toJson time = .object (before ++ ("pov", .object (beside ++
        ("forks", .array (m.scope.forks.map ForkDescriptor.toJson)) :: [])) :: after) ∧
      (∀ f ∈ beside, "forks" ≠ f.1) ∧ ∀ f ∈ before ++ after, "pov" ≠ f.1 :=
  ⟨m.fieldsBefore ++ (timeKey, .string time) :: m.fieldsAfter.take 1,
    [("mode", .string m.plan.mode.name), ("menu_enabled", .bool m.scope.menu),
      ("active", Json.ofStrings (m.scope.routes.map (·.viewpoint))), ("default", Json.ofText? m.plan.preferred),
      ("routes", .array (m.scope.routes.map Route.toJson))],
    m.fieldsAfter.drop 2, rfl, by simp, by simp [fieldsBefore, fieldsAfter, timeKey]⟩

namespace Package

/-- A packager reads the forks from the text of a manifest, whatever else the manifest says. -/
theorem forks_of_manifest (m : ExportManifest) (time : String) :
    forksRecord.read (Tree.written (m.toJson time)) = .ok m.scope.forks := by
  obtain ⟨before, beside, after, hm, hbeside, hother⟩ := m.toJson_eq_forks time
  have hlist := Json.Tree.list_written ForkDescriptor.read_written m.scope.forks
  rw [hm]
  unfold forksRecord
  apply Json.Record.read_written
  · decide
  · intro g hg
    simpa [Json.Field.called, Json.Field.needed, Json.Field.of] using hother g hg
  · refine congrArg (Functor.map _) (Json.Record.read_written ?_ ?_ (congrArg (Functor.map _) hlist))
    · decide
    · intro g hg
      simpa [Json.Field.called, Json.Field.of] using hbeside g (by simpa using hg)

end Package

end StoryPress
