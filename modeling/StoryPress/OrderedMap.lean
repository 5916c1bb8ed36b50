/-!
# Maps kept in key order

An `OrderedMap` is a list of pairs with strictly increasing keys. Its view is `get?`; `entries` is what a
reader of a written map sees, so the order of the keys is part of the type.

* `get?_insert`, `get?_erase`: what each operation does to the view;
* `mem_entries_iff`: the pairs listed are exactly those found by `get?`;
* `mem_of_mem_ofList`, `mem_keys_ofList`: what a map made of a list holds.
-/

namespace StoryPress

/-- Pairs listed with strictly increasing keys. -/
structure OrderedMap (α : Type) (β : Type) [Ord α] where
  entries : List (α × β) := []
  sorted : entries.Pairwise (fun p q => compare p.1 q.1 = .lt) := by exact List.Pairwise.nil
deriving DecidableEq

namespace OrderedMap

variable {α β γ : Type} [Ord α]

/-- The list with `key` set to `value`, in its place. -/
def insertEntry (key : α) (value : β) : List (α × β) → List (α × β)
  | [] => [(key, value)]
  | (k, v) :: rest =>
    match compare key k with
    | .lt => (key, value) :: (k, v) :: rest
    | .eq => (key, value) :: rest
    | .gt => (k, v) :: insertEntry key value rest

theorem mem_insertEntry {key : α} {value : β} {l : List (α × β)} {p : α × β}
    (h : p ∈ insertEntry key value l) : p = (key, value) ∨ p ∈ l := by
  induction l with
  | nil => simpa [insertEntry] using h
  | cons q rest ih =>
    obtain ⟨k, v⟩ := q
    simp only [insertEntry] at h
    split at h
    · simpa using h
    · rcases List.mem_cons.1 h with h | h
      · exact .inl h
      · exact .inr (List.mem_cons_of_mem _ h)
    · rcases List.mem_cons.1 h with h | h
      · exact .inr (h ▸ List.mem_cons_self)
      · rcases ih h with h | h
        · exact .inl h
        · exact .inr (List.mem_cons_of_mem _ h)

variable [Std.TransOrd α]

theorem pairwise_insertEntry [Std.LawfulEqOrd α] (key : α) (value : β) {l : List (α × β)}
    (h : l.Pairwise (fun p q => compare p.1 q.1 = .lt)) :
    (insertEntry key value l).Pairwise (fun p q => compare p.1 q.1 = .lt) := by
  induction l with
  | nil => simp [insertEntry]
  | cons q rest ih =>
    obtain ⟨k, v⟩ := q
    obtain ⟨hk, hrest⟩ := List.pairwise_cons.1 h
    simp only [insertEntry]
    split
    · next hlt =>
      refine List.pairwise_cons.2 ⟨?_, h⟩
      intro p hp
      rcases List.mem_cons.1 hp with rfl | hp
      · exact hlt
      · exact Std.TransCmp.lt_trans hlt (hk p hp)
    · next heq =>
      have hkey : key = k := Std.LawfulEqCmp.eq_of_compare heq
      exact List.pairwise_cons.2 ⟨fun p hp => hkey ▸ hk p hp, hrest⟩
    · next hgt =>
      refine List.pairwise_cons.2 ⟨?_, ih hrest⟩
      intro p hp
      rcases mem_insertEntry hp with rfl | hp
      · exact Std.OrientedCmp.lt_of_gt hgt
      · exact hk p hp

variable [Std.LawfulEqOrd α]

instance : EmptyCollection (OrderedMap α β) := ⟨⟨[], .nil⟩⟩

instance : Inhabited (OrderedMap α β) := ⟨∅⟩

/-- The value kept for a key. -/
def get? (m : OrderedMap α β) (key : α) : Option β :=
  (m.entries.find? (fun p => compare p.1 key == .eq)).map (·.2)

def contains (m : OrderedMap α β) (key : α) : Bool := (m.get? key).isSome

/-- Sets `key` to `value`, whatever it was before. -/
def insert (m : OrderedMap α β) (key : α) (value : β) : OrderedMap α β where
  entries := insertEntry key value m.entries
  sorted := pairwise_insertEntry key value m.sorted

/-- Keeps the entries whose key and value pass the test. -/
def filter (keep : α → β → Bool) (m : OrderedMap α β) : OrderedMap α β where
  entries := m.entries.filter (fun p => keep p.1 p.2)
  sorted := m.sorted.filter _

def erase (m : OrderedMap α β) (key : α) : OrderedMap α β :=
  m.filter (fun k _ => compare k key != .eq)

def keys (m : OrderedMap α β) : List α := m.entries.map (·.1)

def values (m : OrderedMap α β) : List β := m.entries.map (·.2)

def size (m : OrderedMap α β) : Nat := m.entries.length

/-- Later pairs win over earlier ones with the same key. -/
def ofList (l : List (α × β)) : OrderedMap α β :=
  l.foldl (fun m p => m.insert p.1 p.2) ∅

omit [Std.TransOrd α] in
theorem get?_eq_some_iff {m : OrderedMap α β} {key : α} {value : β} :
    m.get? key = some value ↔ (key, value) ∈ m.entries := by
  obtain ⟨l, hl⟩ := m
  simp only [get?]
  induction l with
  | nil => simp
  | cons q rest ih =>
    obtain ⟨k, v⟩ := q
    obtain ⟨hk, hrest⟩ := List.pairwise_cons.1 hl
    by_cases hkey : compare k key = .eq
    · have : k = key := Std.LawfulEqCmp.eq_of_compare hkey
      subst this
      simp only [List.find?_cons, Std.ReflCmp.compare_self, BEq.rfl, Option.map_some, List.mem_cons,
        Option.some.injEq, Prod.mk.injEq, true_and]
      constructor
      · intro h; exact .inl h.symm
      · rintro (h | h)
        · exact h.symm
        · have := hk _ h
          simp at this
    · have hne : key ≠ k := fun h => hkey (h ▸ Std.ReflCmp.compare_self)
      simp only [List.find?_cons, beq_eq_false_iff_ne.2 hkey, List.mem_cons, Prod.mk.injEq, hne,
        false_and, false_or]
      exact ih hrest

omit [Std.TransOrd α] in
theorem mem_entries_iff {m : OrderedMap α β} {p : α × β} :
    p ∈ m.entries ↔ m.get? p.1 = some p.2 := get?_eq_some_iff.symm

omit [Std.TransOrd α] in
theorem contains_iff {m : OrderedMap α β} {key : α} : m.contains key = true ↔ key ∈ m.keys := by
  simp only [contains, Option.isSome_iff_exists, get?_eq_some_iff, keys, List.mem_map, Prod.exists,
    exists_and_right, exists_eq_right]

omit [Std.TransOrd α] [Std.LawfulEqOrd α] in
@[simp] theorem get?_empty (key : α) : (∅ : OrderedMap α β).get? key = none := rfl

theorem mem_insertEntry_iff {key : α} {value : β} {l : List (α × β)} {p : α × β}
    (h : l.Pairwise (fun p q => compare p.1 q.1 = .lt)) :
    p ∈ insertEntry key value l ↔ p = (key, value) ∨ p.1 ≠ key ∧ p ∈ l := by
  induction l with
  | nil => simp [insertEntry]
  | cons q rest ih =>
    obtain ⟨k, v⟩ := q
    obtain ⟨hk, hrest⟩ := List.pairwise_cons.1 h
    have after : ∀ {x : α}, compare x k = .lt ∨ compare x k = .eq → ∀ r ∈ rest, r.1 ≠ x := by
      rintro x hx r hr rfl
      have h1 := hk r hr
      rcases hx with hx | hx
      · exact absurd (Std.TransCmp.lt_trans hx h1) (by simp)
      · rw [Std.LawfulEqCmp.eq_of_compare hx] at h1; simp at h1
    simp only [insertEntry]
    split
    · next hlt =>
      have hne : k ≠ key := by rintro rfl; simp at hlt
      have := after (.inl hlt)
      grind
    · next heq =>
      have hkey : key = k := Std.LawfulEqCmp.eq_of_compare heq
      have := after (.inr heq)
      grind
    · next hgt =>
      have hne : k ≠ key := by rintro rfl; simp at hgt
      have := ih hrest
      grind

theorem get?_insert (m : OrderedMap α β) (key k : α) (value : β) :
    (m.insert key value).get? k = if compare k key = .eq then some value else m.get? k := by
  apply Option.ext
  intro v
  rw [get?_eq_some_iff]
  simp only [insert, mem_insertEntry_iff m.sorted]
  split
  · next h =>
    have : k = key := Std.LawfulEqCmp.eq_of_compare h
    subst this
    simp [eq_comm]
  · next h =>
    have : k ≠ key := fun e => h (e ▸ Std.ReflCmp.compare_self)
    simp [this, get?_eq_some_iff]

omit [Std.TransOrd α] in
theorem get?_filter (m : OrderedMap α β) (keep : α → β → Bool) (key : α) :
    (m.filter keep).get? key = (m.get? key).filter (keep key) := by
  apply Option.ext
  intro v
  simp [get?_eq_some_iff, filter, Option.filter_eq_some_iff]

omit [Std.TransOrd α] in
theorem get?_erase (m : OrderedMap α β) (key k : α) :
    (m.erase key).get? k = if compare k key = .eq then none else m.get? k := by
  rw [erase, get?_filter]
  cases m.get? k <;> by_cases h : compare k key = .eq <;> simp [Option.filter, h]

theorem mem_keys_insert {m : OrderedMap α β} {key k : α} {value : β} :
    k ∈ (m.insert key value).keys ↔ k = key ∨ k ∈ m.keys := by
  simp only [keys, List.mem_map, Prod.exists, exists_and_right, exists_eq_right, insert,
    mem_insertEntry_iff m.sorted, Prod.mk.injEq]
  constructor
  · rintro ⟨v, ⟨rfl, -⟩ | ⟨-, hv⟩⟩
    · exact .inl rfl
    · exact .inr ⟨v, hv⟩
  · rintro (rfl | ⟨v, hv⟩)
    · exact ⟨value, .inl ⟨rfl, rfl⟩⟩
    · by_cases hk : k = key
      · exact ⟨value, .inl ⟨hk, rfl⟩⟩
      · exact ⟨v, .inr ⟨hk, hv⟩⟩

theorem mem_of_mem_ofList {l : List (α × β)} {p : α × β} (h : p ∈ (ofList l).entries) : p ∈ l := by
  have fold (l : List (α × β)) : ∀ m : OrderedMap α β,
      p ∈ (l.foldl (fun m p => m.insert p.1 p.2) m).entries → p ∈ m.entries ∨ p ∈ l := by
    induction l with
    | nil => exact fun m h => .inl h
    | cons q l ih =>
      intro m h
      rcases ih _ h with h | h
      · rcases mem_insertEntry h with h | h
        · exact .inr (h ▸ List.mem_cons_self)
        · exact .inl h
      · exact .inr (List.mem_cons_of_mem _ h)
  rcases fold l ∅ h with h | h
  · cases h
  · exact h

theorem mem_keys_ofList {l : List (α × β)} {k : α} : k ∈ (ofList l).keys ↔ k ∈ l.map (·.1) := by
  have fold (l : List (α × β)) : ∀ m : OrderedMap α β,
      k ∈ (l.foldl (fun m p => m.insert p.1 p.2) m).keys ↔ k ∈ m.keys ∨ k ∈ l.map (·.1) := by
    induction l with
    | nil => simp
    | cons q l ih =>
      intro m
      rw [List.foldl_cons, ih, mem_keys_insert, List.map_cons, List.mem_cons]
      simp only [or_assoc, or_left_comm]
  have h := fold l ∅
  rwa [show (∅ : OrderedMap α β).keys = [] from rfl, List.mem_nil_iff, false_or] at h

omit [Std.TransOrd α] in
theorem nodup_keys (m : OrderedMap α β) : m.keys.Nodup := by
  refine List.pairwise_map.2 (m.sorted.imp fun {p q} h he => ?_)
  rw [he, show compare q.1 q.1 = .eq from Std.ReflCmp.compare_self] at h
  cases h

end OrderedMap

end StoryPress
