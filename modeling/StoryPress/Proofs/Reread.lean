import Mathlib.Data.List.Forall2
import StoryPress.Proofs.JsonText
import StoryPress.Proofs.Remembered

/-!
# Values that are read back

The text of a value is read as the value, but for the order of its fields and for integers that do not fit into 64 bits.

* `Json.Rereads`: what the text of a value is read as, container by container;
* `Json.integer_natCast`: integers that fit are read as they are;
* `Json.field?_of_rereads`: what is read under a key is what was written under it.
-/

namespace StoryPress.Json

/-! ## Integers -/

namespace Reader

theorem le_foldl_digits (ds : List Nat) (n : Nat) : n ≤ ds.foldl (fun n d => 10 * n + d) n := by
  induction ds generalizing n with
  | nil => exact Nat.le_refl n
  | cons d ds ih => exact Nat.le_trans (by omega) (ih (10 * n + d))

/-- Digits are all gathered where their number fits. -/
theorem gather_eq {ds : List Nat} {n : Nat} (h : ds.foldl (fun n d => 10 * n + d) n < 1 <<< 64) :
    gather n ds = (ds.foldl (fun n d => 10 * n + d) n, 0) := by
  induction ds generalizing n with
  | nil => rfl
  | cons d ds ih =>
    rw [List.foldl_cons] at h ⊢
    rw [gather, if_pos (Nat.lt_of_le_of_lt (le_foldl_digits ds _) h), ih h]

theorem foldl_digitsOf (n : Nat) : (digitsOf n).foldl (fun n d => 10 * n + d) 0 = n := by
  have hdigits := Nat.ofDigitChars_toDigits (n := n) (show 1 < 10 by omega) (Nat.le_refl 10)
  rw [digitsOf, List.foldl_map]
  exact hdigits

theorem integer_natCast {n : Nat} (h : n < 1 <<< 64) : integer n = some (.integer n) := by
  have hgather : gather 0 (digitsOf n) = (n, 0) := by
    rw [gather_eq (by rwa [foldl_digitsOf]), foldl_digitsOf]
  simp [integer, Written.value, hgather]

end Reader

/-! ## Values -/

/-- The text of a value is read as another value, before its fields are put in order. -/
def Rereads (v w : Json) : Prop := (Tree.written v).raw = .ok w

namespace Rereads

variable {v w : Json}

theorem value_eq_ok_iff {x : Json} : (Tree.written v).value = .ok x ↔ ∃ w, Rereads v w ∧ w.normalize = x := by
  unfold Tree.value Rereads
  cases (Tree.written v).raw <;> simp [Functor.map, Except.map]

theorem unique {x : Json} (h : Rereads v w) (h' : Rereads v x) : w = x := Except.ok.inj (h.symm.trans h')

theorem string_iff {s : String} : Rereads (.string s) w ↔ w = .string s := by
  simp [Rereads, Tree.written, Tree.raw, eq_comm]

theorem ofNat {n : Nat} (h : n < 1 <<< 64) : Rereads (.ofNat n) (.ofNat n) := by
  simp [Rereads, Json.ofNat, Tree.written, Reader.integer_natCast h, Tree.raw]

theorem ofText? (s : Option String) : Rereads (.ofText? s) (.ofText? s) := by
  cases s <;> rfl

theorem rawItems_iff {vs ws : List Json} :
    Tree.rawItems (Tree.writtenItems vs) = .ok ws ↔ List.Forall₂ Rereads vs ws := by
  induction vs generalizing ws with
  | nil => simp [Tree.writtenItems, Tree.rawItems, eq_comm]
  | cons v vs ih =>
    rw [Tree.writtenItems, Tree.rawItems, List.forall₂_cons_left_iff]
    constructor
    · intro h
      obtain ⟨w, hw, h⟩ := bind_eq_ok.1 h
      obtain ⟨ws, hws, h⟩ := bind_eq_ok.1 h
      exact ⟨w, ws, hw, ih.1 hws, (pure_eq_ok.1 h).symm⟩
    · rintro ⟨w, ws, hw, hws, rfl⟩
      exact bind_eq_ok.2 ⟨w, hw, bind_eq_ok.2 ⟨ws, ih.2 hws, rfl⟩⟩

theorem rawMembers_iff {fields fields' : List (String × Json)} :
    Tree.rawMembers (Tree.writtenFields fields) = .ok fields' ↔
      List.Forall₂ (fun f f' => f'.1 = f.1 ∧ Rereads f.2 f'.2) fields fields' := by
  induction fields generalizing fields' with
  | nil => simp [Tree.writtenFields, Tree.rawMembers, eq_comm]
  | cons f fields ih =>
    rw [Tree.writtenFields, Tree.rawMembers, List.forall₂_cons_left_iff]
    constructor
    · intro h
      obtain ⟨w, hw, h⟩ := bind_eq_ok.1 h
      obtain ⟨rest, hrest, h⟩ := bind_eq_ok.1 h
      exact ⟨(f.1, w), rest, ⟨rfl, hw⟩, ih.1 hrest, (pure_eq_ok.1 h).symm⟩
    · rintro ⟨⟨k, w⟩, rest, ⟨hk, hw⟩, hrest, rfl⟩
      obtain rfl : k = f.1 := hk
      exact bind_eq_ok.2 ⟨w, hw, bind_eq_ok.2 ⟨rest, ih.2 hrest, rfl⟩⟩

/-- A list is read item by item. -/
theorem array_iff {vs : List Json} : Rereads (.array vs) w ↔ ∃ ws, List.Forall₂ Rereads vs ws ∧ w = .array ws := by
  unfold Rereads
  rw [Tree.written, Tree.raw]
  simp only [bind_eq_ok, pure_eq_ok, rawItems_iff]
  constructor
  · rintro ⟨ws, hws, -, -, rfl⟩
    exact ⟨ws, hws, rfl⟩
  · rintro ⟨ws, hws, rfl⟩
    exact ⟨ws, hws, (), rfl, rfl⟩

/-- An object is read field by field. -/
theorem object_iff {fields : List (String × Json)} :
    Rereads (.object fields) w ↔
      ∃ fields', List.Forall₂ (fun f f' => f'.1 = f.1 ∧ Rereads f.2 f'.2) fields fields' ∧ w = .object fields' := by
  unfold Rereads
  rw [Tree.written, Tree.raw]
  simp only [bind_eq_ok, pure_eq_ok, rawMembers_iff]
  constructor
  · rintro ⟨fields', hfields, -, -, rfl⟩
    exact ⟨fields', hfields, rfl⟩
  · rintro ⟨fields', hfields, rfl⟩
    exact ⟨fields', hfields, (), rfl, rfl⟩

theorem array_self {vs : List Json} (h : ∀ v ∈ vs, Rereads v v) : Rereads (.array vs) (.array vs) :=
  array_iff.2 ⟨vs, List.forall₂_same.2 h, rfl⟩

theorem object_self {fields : List (String × Json)} (h : ∀ f ∈ fields, Rereads f.2 f.2) :
    Rereads (.object fields) (.object fields) :=
  object_iff.2 ⟨fields, List.forall₂_same.2 fun f hf => ⟨rfl, h f hf⟩, rfl⟩

end Rereads

theorem normalizeItems_eq (vs : List Json) : normalizeItems vs = vs.map normalize := by
  induction vs with
  | nil => rfl
  | cons v vs ih => rw [List.map_cons, ← ih, normalizeItems]

theorem keys_of_rereads {fields fields' : List (String × Json)}
    (h : List.Forall₂ (fun f f' => f'.1 = f.1 ∧ Rereads f.2 f'.2) fields fields') :
    fields'.map (·.1) = fields.map (·.1) := by
  induction h with
  | nil => rfl
  | cons hf _ ih => rw [List.map_cons, List.map_cons, hf.1, ih]

theorem split_of_forall₂ {α β : Type} {R : α → β → Prop} {before after : List α} {bs : List β}
    (h : List.Forall₂ R (before ++ after) bs) :
    ∃ front back, List.Forall₂ R after back ∧ bs = front ++ back := by
  induction before generalizing bs with
  | nil => exact ⟨[], bs, h, rfl⟩
  | cons a before ih =>
    obtain ⟨b, bs, -, hrest, rfl⟩ := List.forall₂_cons_left_iff.1 h
    obtain ⟨front, back, hback, rfl⟩ := ih hrest
    exact ⟨b :: front, back, hback, rfl⟩

/-- What is read under a key is what was written under it. -/
theorem field?_of_rereads {fields : List (String × Json)} {key : String} {v w : Json}
    (h : Rereads (.object fields) w) (hkeys : (fields.map (·.1)).Nodup) (hv : (key, v) ∈ fields) :
    ∃ x, Rereads v x ∧ w.normalize.field? key = some x.normalize := by
  obtain ⟨fields', hfields, rfl⟩ := Rereads.object_iff.1 h
  obtain ⟨before, after, rfl⟩ := List.append_of_mem hv
  rw [List.map_append, List.map_cons] at hkeys
  have hkey : key ∉ after.map (·.1) := (List.nodup_cons.1 (List.nodup_append.1 hkeys).2.1).1
  obtain ⟨front, back, hback, rfl⟩ := split_of_forall₂ hfields
  obtain ⟨⟨k, x⟩, rest, ⟨hk, hx⟩, hrest, rfl⟩ := List.forall₂_cons_left_iff.1 hback
  obtain rfl : k = key := hk
  refine ⟨x, hx, ?_⟩
  have hlast : k ∉ (normalizeFields rest).map (·.1) := by rwa [keys_normalizeFields, keys_of_rereads hrest]
  have hsplit : normalizeFields (front ++ (k, x) :: rest) =
      normalizeFields front ++ (k, x.normalize) :: normalizeFields rest := by simp [normalizeFields_eq]
  rw [normalize, hsplit, sortFields_eq]
  simp only [field?, asObject?, Option.bind_some, OrderedMap.lookup_entries, OrderedMap.get?_ofList_of_last hlast]

end StoryPress.Json
