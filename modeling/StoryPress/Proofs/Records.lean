import Mathlib.Data.List.Pairwise
import StoryPress.Json.Record
import StoryPress.Proofs.Outcome
import StoryPress.Proofs.Reread

/-!
# Records and values in normal form

A value and its normal form are read alike, although the normal form has its fields in another order.

* `Json.normalize_normalize`: a normal form is its own;
* `Json.Uniform`: readers that take a normal form as what it is a form of;
* `Record.read_object_iff`: a record is read from an object that holds each of its fields at most once, and those that
  are needed;
* `Record.uniform`: so a record is read alike if its fields are, and do not get in each other's way;
* `Record.Locates`: what looks a field up among the members of an object finds what the record has from it.
-/

namespace StoryPress.Json

/-! ## Values -/

namespace Tree

mutual

theorem raw_ofJson : ∀ v : Json, (ofJson v).raw = .ok v
  | .null | .bool _ | .number _ | .string _ => rfl
  | .array items => by
    rw [ofJson, raw, rawItems_ofItems items]
    rfl
  | .object fields => by
    rw [ofJson, raw, rawMembers_ofFields fields]
    rfl

theorem rawItems_ofItems : ∀ vs : List Json, rawItems (ofItems vs) = .ok vs
  | [] => rfl
  | v :: vs => by
    rw [ofItems, rawItems, raw_ofJson v, rawItems_ofItems vs]
    rfl

theorem rawMembers_ofFields : ∀ fields : List (String × Json), rawMembers (ofFields fields) = .ok fields
  | [] => rfl
  | (k, v) :: rest => by
    rw [ofFields, rawMembers, raw_ofJson v, rawMembers_ofFields rest]
    rfl

end

mutual

theorem skip_ofJson : ∀ v : Json, (ofJson v).skip = .ok ()
  | .null | .bool _ | .number _ | .string _ => rfl
  | .array items => by
    rw [ofJson, skip, skipItems_ofItems items]
    rfl
  | .object fields => by
    rw [ofJson, skip, skipMembers_ofFields fields]
    rfl

theorem skipItems_ofItems : ∀ vs : List Json, skipItems (ofItems vs) = .ok ()
  | [] => rfl
  | v :: vs => by
    rw [ofItems, skipItems, skip_ofJson v]
    exact skipItems_ofItems vs

theorem skipMembers_ofFields : ∀ fields : List (String × Json), skipMembers (ofFields fields) = .ok ()
  | [] => rfl
  | (k, v) :: rest => by
    rw [ofFields, skipMembers, skip_ofJson v]
    exact skipMembers_ofFields rest

end

theorem value_ofJson (v : Json) : (ofJson v).value = .ok v.normalize := by
  rw [value, raw_ofJson]
  rfl

theorem text_ofJson_iff {v : Json} {s : String} : text (ofJson v) = .ok s ↔ v = .string s := by
  cases v <;> simp [ofJson, text, mismatch]

end Tree

theorem mem_of_mem_sortFields {fields : List (String × Json)} {f : String × Json} (h : f ∈ sortFields fields) :
    f ∈ fields := by
  rw [sortFields_eq] at h
  exact OrderedMap.mem_of_mem_ofList h

theorem sortFields_of_sorted (m : OrderedMap String Json) : sortFields m.entries = m.entries := by
  rw [sortFields_eq]
  refine OrderedMap.eq_of_sorted (OrderedMap.sorted _) m.sorted fun f => ⟨OrderedMap.mem_of_mem_ofList, fun hf => ?_⟩
  obtain ⟨g, hg, hkey⟩ := List.mem_map.1 (OrderedMap.mem_keys_ofList.2 (List.mem_map_of_mem hf))
  have hsame : m.get? g.1 = some g.2 := OrderedMap.mem_entries_iff.1 (OrderedMap.mem_of_mem_ofList hg)
  rw [hkey, OrderedMap.mem_entries_iff.1 hf] at hsame
  exact (Prod.ext hkey (Option.some.inj hsame).symm : g = f) ▸ hg

theorem sortFields_sortFields (fields : List (String × Json)) : sortFields (sortFields fields) = sortFields fields := by
  rw [sortFields_eq fields, sortFields_of_sorted]

/-- Fields with values in normal form stay so when they are put in order. -/
theorem normalizeFields_of_normal {fields : List (String × Json)} (h : ∀ f ∈ fields, normalize f.2 = f.2) :
    normalizeFields fields = fields := by
  rw [normalizeFields_eq]
  conv_rhs => rw [← List.map_id fields]
  exact List.map_congr_left fun f hf => Prod.ext rfl (h f hf)

mutual

theorem normalize_normalize : ∀ v : Json, v.normalize.normalize = v.normalize
  | .null | .bool _ | .number _ | .string _ => rfl
  | .array items => by rw [normalize, normalize, normalizeItems_normalizeItems items]
  | .object fields => by
    have hnormal (f : String × Json) (hf : f ∈ sortFields (normalizeFields fields)) : normalize f.2 = f.2 :=
      normal_of_mem_normalizeFields fields f (mem_of_mem_sortFields hf)
    rw [normalize, normalize, normalizeFields_of_normal hnormal, sortFields_sortFields]

theorem normalizeItems_normalizeItems : ∀ vs : List Json, normalizeItems (normalizeItems vs) = normalizeItems vs
  | [] => rfl
  | v :: vs => by
    rw [normalizeItems, normalizeItems, normalize_normalize v, normalizeItems_normalizeItems vs]

theorem normal_of_mem_normalizeFields : ∀ fields : List (String × Json), ∀ f ∈ normalizeFields fields,
    normalize f.2 = f.2
  | [], f, hf => by cases hf
  | (k, v) :: rest, f, hf => by
    rw [normalizeFields] at hf
    rcases List.mem_cons.1 hf with rfl | hf
    · exact normalize_normalize v
    · exact normal_of_mem_normalizeFields rest f hf

end

/-! ## Readers -/

/-- What is read from a value is read from its normal form too. -/
def Uniform {α : Type} (read : Tree → Reading α) : Prop :=
  ∀ v x, read (Tree.ofJson v) = .ok x → read (Tree.ofJson v.normalize) = .ok x

/-- A value from which something is read, as it is written and in its normal form. -/
def Encodes {α : Type} (read : Tree → Reading α) (v : Json) (x : α) : Prop :=
  read (Tree.ofJson v) = .ok x ∧ read (Tree.ofJson v.normalize) = .ok x

theorem Uniform.encodes {α : Type} {read : Tree → Reading α} (h : Uniform read) {v : Json} {x : α}
    (hx : read (Tree.ofJson v) = .ok x) : Encodes read v x := ⟨hx, h v x hx⟩

theorem uniform_text : Uniform Tree.text := by
  intro v s h
  obtain rfl := Tree.text_ofJson_iff.1 h
  rfl

theorem uniform_value : Uniform Tree.value := by
  intro v x h
  rw [Tree.value_ofJson] at h ⊢
  rw [normalize_normalize, h]

section
variable {α : Type} {read : Tree → Reading α}

/-- Only null is read as nothing. -/
theorem Tree.optional_of_ne_null {t : Tree} (h : t ≠ .null) : Tree.optional read t = some <$> read t := by
  cases t with
  | null => exact absurd rfl h
  | _ => rfl

theorem Tree.ofJson_eq_null_iff {v : Json} : Tree.ofJson v = .null ↔ v = .null := by
  cases v <;> simp [Tree.ofJson]

theorem optional_ofJson {v : Json} (h : v ≠ .null) :
    Tree.optional read (Tree.ofJson v) = some <$> read (Tree.ofJson v) :=
  Tree.optional_of_ne_null (mt Tree.ofJson_eq_null_iff.1 h)

theorem normalize_eq_null_iff {v : Json} : v.normalize = .null ↔ v = .null := by
  cases v <;> simp [normalize]

theorem Uniform.optional (h : Uniform read) : Uniform (Tree.optional read) := by
  intro v x hx
  by_cases hv : v = .null
  · rw [hv] at hx ⊢
    exact hx
  · rw [optional_ofJson hv] at hx
    obtain ⟨y, hy, rfl⟩ := map_eq_ok.1 hx
    rw [optional_ofJson fun hn => hv (normalize_eq_null_iff.1 hn)]
    exact map_eq_ok.2 ⟨y, h v y hy, rfl⟩

theorem Tree.items_ofItems_iff {vs : List Json} {xs : List α} :
    Tree.items read (Tree.ofItems vs) = .ok xs ↔ List.Forall₂ (fun v x => read (Tree.ofJson v) = .ok x) vs xs := by
  induction vs generalizing xs with
  | nil => simp [Tree.ofItems, Tree.items, eq_comm]
  | cons v vs ih =>
    rw [Tree.ofItems, Tree.items, List.forall₂_cons_left_iff]
    constructor
    · intro h
      obtain ⟨x, hx, h⟩ := bind_eq_ok.1 h
      obtain ⟨rest, hrest, h⟩ := bind_eq_ok.1 h
      exact ⟨x, rest, hx, ih.1 hrest, (pure_eq_ok.1 h).symm⟩
    · rintro ⟨x, rest, hx, hrest, rfl⟩
      exact bind_eq_ok.2 ⟨x, hx, bind_eq_ok.2 ⟨rest, ih.2 hrest, rfl⟩⟩

/-- A list is read from an array, item by item. -/
theorem Tree.list_ofJson_iff {v : Json} {xs : List α} :
    Tree.list read (Tree.ofJson v) = .ok xs ↔
      ∃ vs, v = .array vs ∧ List.Forall₂ (fun v x => read (Tree.ofJson v) = .ok x) vs xs := by
  cases v with
  | array vs =>
    rw [Tree.ofJson, Tree.list]
    simp [bind_eq_ok, Tree.items_ofItems_iff, Ending.finish]
  | _ => simp [Tree.ofJson, Tree.list, Tree.mismatch]

theorem Uniform.list (h : Uniform read) : Uniform (Tree.list read) := by
  intro v xs hxs
  obtain ⟨vs, rfl, hvs⟩ := Tree.list_ofJson_iff.1 hxs
  rw [normalize, normalizeItems_eq]
  refine Tree.list_ofJson_iff.2 ⟨_, rfl, List.forall₂_map_left_iff.2 ?_⟩
  exact hvs.imp fun v x hx => h v x hx

end

/-- Readers that take a value whole, and then look at its form. -/
theorem whole_eq_ok_iff {α : Type} {read : Tree → Reading α} {form : Json → Option α}
    (h : ∀ t, read t = t.raw >>= fun v => (form v).elim (.error .shape) .ok) {t : Tree} {x : α} :
    read t = .ok x ↔ ∃ v, t.raw = .ok v ∧ form v = some x := by
  rw [h, bind_eq_ok]
  refine exists_congr fun v => and_congr_right fun _ => ?_
  cases form v <;> simp

/-! ## Fields -/

namespace Field

variable {α β γ : Type}

/-- What a field makes of a value, it makes of its normal form. -/
def Uniform (f : Field α) : Prop :=
  ∀ v a b, f.read (Tree.ofJson v) a = .ok b → f.read (Tree.ofJson v.normalize) a = .ok b

/-- Two fields can be read one after the other in either order. -/
def Apart (f g : Field α) : Prop :=
  ∀ t u a c, (f.read t a >>= g.read u) = .ok c ↔ (g.read u a >>= f.read t) = .ok c

/-- Entering the field keeps what holds of a record. -/
def Preserves (f : Field α) (P : α → Prop) : Prop := ∀ t a b, P a → f.read t a = .ok b → P b

theorem Apart.symm {f g : Field α} (h : f.Apart g) : g.Apart f := fun t u a c => (h u t a c).symm

instance instSymmApart : Std.Symm (@Apart α) := ⟨fun _ _ => Apart.symm⟩

@[simp] theorem needed_uniform {f : Field α} : f.needed.Uniform ↔ f.Uniform := Iff.rfl

@[simp] theorem needed_apart {f g : Field α} : f.needed.Apart g ↔ f.Apart g := Iff.rfl

@[simp] theorem needed_preserves {f : Field α} {P : α → Prop} : f.needed.Preserves P ↔ f.Preserves P := Iff.rfl

variable {read : Tree → Reading β} {read' : Tree → Reading γ} {store : β → α → α} {store' : γ → α → α}

theorem read_of_eq_ok {name : String} {t : Tree} {a b : α} :
    (of name read store).read t a = .ok b ↔ ∃ x, read t = .ok x ∧ store x a = b := map_eq_ok

theorem uniform_of (name : String) (h : Json.Uniform read) : (of name read store).Uniform := by
  intro v a b hb
  obtain ⟨x, hx, rfl⟩ := read_of_eq_ok.1 hb
  exact read_of_eq_ok.2 ⟨x, h v x hx, rfl⟩

theorem preserves_of {P : α → Prop} (name : String) (h : ∀ t x a, read t = .ok x → P a → P (store x a)) :
    (of name read store).Preserves P := by
  intro t a b ha hb
  obtain ⟨x, hx, rfl⟩ := read_of_eq_ok.1 hb
  exact h t x a hx ha

/-- Fields that are stored in places of their own are apart. -/
theorem apart_of {name name' : String} (h : ∀ x y a, store' y (store x a) = store x (store' y a)) :
    (of name read store).Apart (of name' read' store') := by
  intro t u a c
  simp only [bind_eq_ok, read_of_eq_ok]
  constructor
  · rintro ⟨_, ⟨x, hx, rfl⟩, y, hy, rfl⟩
    exact ⟨_, ⟨y, hy, rfl⟩, x, hx, (h x y a).symm⟩
  · rintro ⟨_, ⟨y, hy, rfl⟩, x, hx, rfl⟩
    exact ⟨_, ⟨x, hx, rfl⟩, y, hy, h x y a⟩

end Field

/-! ## Records -/

namespace Record

variable {α : Type} {r : Record α}

/-- The members of an object that are fields of the record. -/
def known (r : Record α) (members : List (String × Json)) : List (Field α × Json) :=
  members.filterMap fun m => (r.fields.find? (·.called m.1)).map (·, m.2)

/-- Enters a member into a record. -/
def enter (done : α) (m : Field α × Json) : Reading α := m.1.read (Tree.ofJson m.2) done

theorem known_cons_of_none {m : String × Json} {members : List (String × Json)}
    (h : r.fields.find? (·.called m.1) = none) : r.known (m :: members) = r.known members := by
  simp [known, h]

theorem known_cons_of_some {m : String × Json} {members : List (String × Json)} {f : Field α}
    (h : r.fields.find? (·.called m.1) = some f) : r.known (m :: members) = (f, m.2) :: r.known members := by
  simp [known, h]

theorem mem_known {members : List (String × Json)} {key : String} {v : Json} {f : Field α}
    (h : r.fields.find? (·.called key) = some f) (hmem : (key, v) ∈ members) : (f, v) ∈ r.known members :=
  List.mem_filterMap.2 ⟨(key, v), hmem, by simp [h]⟩

/-- Nothing is held under the names of a field that is not among the members. -/
theorem lookup_eq_none {members : List (String × Json)} {key : String} {f : Field α}
    (h : r.fields.find? (·.called key) = some f) (hnot : f.name ∉ (r.known members).map (·.1.name)) :
    members.lookup key = none := by
  refine List.lookup_eq_none_iff.2 ?_
  rintro ⟨k, v⟩ hm
  refine bne_iff_ne.2 fun hkey => hnot ?_
  subst hkey
  exact List.mem_map_of_mem (mem_known h hm)

theorem mem_fields_of_known {members : List (String × Json)} {m : Field α × Json} (h : m ∈ r.known members) :
    m.1 ∈ r.fields := by
  obtain ⟨member, -, hm⟩ := List.mem_filterMap.1 h
  obtain ⟨f, hf, rfl⟩ := Option.map_eq_some_iff.1 hm
  exact List.mem_of_find?_eq_some hf

/-- The members that are fields are entered one after the other; none may come twice. -/
theorem readMembers_eq_ok_iff {members : List (String × Json)} {seen names : List String} {done x : α} :
    r.readMembers seen done (Tree.ofFields members) = .ok (names, x) ↔
      ((r.known members).map (·.1.name)).Nodup ∧ (∀ m ∈ r.known members, m.1.name ∉ seen) ∧
        ((r.known members).map (·.1.name)).reverse ++ seen = names ∧
          (r.known members).foldlM enter done = .ok x := by
  induction members generalizing seen done with
  | nil => simp [known, Tree.ofFields, readMembers, pure_eq_ok]
  | cons member members ih =>
    obtain ⟨key, v⟩ := member
    rw [Tree.ofFields, readMembers]
    cases hf : r.fields.find? (·.called key) with
    | none =>
      rw [known_cons_of_none hf]
      dsimp only
      rw [Tree.skip_ofJson]
      exact ih
    | some f =>
      rw [known_cons_of_some hf]
      dsimp only
      by_cases hseen : f.name ∈ seen
      · rw [if_pos (List.contains_iff_mem.2 hseen)]
        simp [hseen]
      · rw [if_neg fun h => hseen (List.contains_iff_mem.1 h)]
        simp only [bind_eq_ok, ih, List.map_cons, List.nodup_cons, List.forall_mem_cons, List.foldlM_cons, enter,
          List.reverse_cons, List.append_assoc, List.singleton_append]
        constructor
        · rintro ⟨next, hnext, hnodup, hfree, hnames, hx⟩
          have hapart (m : Field α × Json) (hm : m ∈ r.known members) : m.1.name ≠ f.name ∧ m.1.name ∉ seen :=
            not_or.1 (mt List.mem_cons.2 (hfree m hm))
          refine ⟨⟨fun hmem => ?_, hnodup⟩, ⟨hseen, fun m hm => (hapart m hm).2⟩, hnames, next, hnext, hx⟩
          obtain ⟨m, hm, hname⟩ := List.mem_map.1 hmem
          exact (hapart m hm).1 hname
        · rintro ⟨⟨hnew, hnodup⟩, ⟨-, hfree⟩, hnames, next, hnext, hx⟩
          refine ⟨next, hnext, hnodup, fun m hm hmem => ?_, hnames, hx⟩
          rcases List.mem_cons.1 hmem with hname | hmem
          · exact hnew (hname ▸ List.mem_map_of_mem hm)
          · exact hfree m hm hmem

/-- Members of an object give a record. -/
structure Gives (r : Record α) (members : List (Field α × Json)) (x : α) : Prop where
  once : (members.map (·.1.name)).Nodup
  complete : ∀ f ∈ r.fields, f.required = true → f.name ∈ members.map (·.1.name)
  entered : members.foldlM enter r.start = .ok x

theorem read_object_iff {members : List (String × Json)} {x : α} :
    r.read (Tree.ofJson (.object members)) = .ok x ↔ r.Gives (r.known members) x := by
  have hall (names : List String) : (r.fields.all fun f => !f.required || names.contains f.name) = true ↔
      ∀ f ∈ r.fields, f.required = true → f.name ∈ names := by
    simp [List.all_eq_true, imp_iff_not_or]
  rw [Tree.ofJson, read]
  constructor
  · intro h
    obtain ⟨⟨names, done⟩, hmembers, h⟩ := bind_eq_ok.1 h
    obtain ⟨honce, -, hnames, hentered⟩ := readMembers_eq_ok_iff.1 hmembers
    obtain ⟨-, -, h⟩ := bind_eq_ok.1 h
    split at h
    · next hfull =>
      obtain rfl := pure_eq_ok.1 h
      refine ⟨honce, fun f hf hreq => ?_, hentered⟩
      simpa [← hnames] using (hall names).1 hfull f hf hreq
    · cases h
  · intro h
    refine bind_eq_ok.2 ⟨(_, x), readMembers_eq_ok_iff.2 ⟨h.once, by simp, rfl, h.entered⟩, ?_⟩
    refine bind_eq_ok.2 ⟨(), rfl, ?_⟩
    rw [if_pos ((hall _).2 fun f hf hreq => by simpa using h.complete f hf hreq)]
    rfl

/-- An object is read where the names of its fields are told. -/
theorem read_object_of_names {members : List (String × Json)} {x : α} (names : List String)
    (hnames : (r.known members).map (·.1.name) = names) (honce : names.Nodup)
    (hfull : (r.fields.all fun f => !f.required || names.contains f.name) = true)
    (h : (r.known members).foldlM enter r.start = .ok x) : r.read (Tree.ofJson (.object members)) = .ok x := by
  subst hnames
  refine read_object_iff.2 ⟨honce, fun f hf hreq => ?_, h⟩
  have hf' := List.all_eq_true.1 hfull f hf
  rw [hreq] at hf'
  exact List.contains_iff_mem.1 hf'

/-! ## What is kept while a record is read -/

section
variable {P : α → Prop} (hstep : ∀ f ∈ r.fields, f.Preserves P)
include hstep

theorem invariant_of_readMembers {members : List (Option String × Tree)} {seen names : List String} {done x : α}
    (hdone : P done) (h : r.readMembers seen done members = .ok (names, x)) : P x := by
  induction members generalizing seen done with
  | nil =>
    cases h
    exact hdone
  | cons member members ih =>
    obtain ⟨_ | key, t⟩ := member
    · cases h
    · rw [readMembers] at h
      cases hf : r.fields.find? (·.called key) with
      | none =>
        rw [hf] at h
        obtain ⟨-, -, h⟩ := bind_eq_ok.1 h
        exact ih hdone h
      | some f =>
        rw [hf] at h
        dsimp only at h
        split at h
        · cases h
        · obtain ⟨next, hnext, h⟩ := bind_eq_ok.1 h
          exact ih (hstep f (List.mem_of_find?_eq_some hf) t done next hdone hnext) h

theorem invariant_of_readItems {fields : List (Field α)} (hmem : ∀ f ∈ fields, f ∈ r.fields) {ending : Ending}
    {ts : List Tree} {done x : α} (hdone : P done) (h : readItems ending done fields ts = .ok x) : P x := by
  induction fields generalizing ts done with
  | nil =>
    cases ts with
    | nil =>
      obtain ⟨-, -, h⟩ := bind_eq_ok.1 h
      exact pure_eq_ok.1 h ▸ hdone
    | cons t ts =>
      rw [readItems] at h
      split at h
      · cases h
        exact hdone
      · cases h
  | cons f fields ih =>
    have hrest : ∀ g ∈ fields, g ∈ r.fields := fun g hg => hmem g (List.mem_cons_of_mem f hg)
    cases ts with
    | nil =>
      obtain ⟨-, -, h⟩ := bind_eq_ok.1 h
      split at h
      · cases h
      · exact ih hrest hdone h
    | cons t ts =>
      obtain ⟨next, hnext, h⟩ := bind_eq_ok.1 h
      exact ih hrest (hstep f (hmem f List.mem_cons_self) t done next hdone hnext) h

/-- What every field keeps, a record has that is read from whatever document. -/
theorem invariant_of_read (hstart : P r.start) {t : Tree} {x : α} (h : r.read t = .ok x) : P x := by
  cases t with
  | object members ending =>
    obtain ⟨⟨names, done⟩, hdone, h⟩ := bind_eq_ok.1 h
    obtain ⟨-, -, h⟩ := bind_eq_ok.1 h
    split at h
    · exact pure_eq_ok.1 h ▸ invariant_of_readMembers hstep hstart hdone
    · cases h
  | array ts ending => exact invariant_of_readItems hstep (fun f hf => hf) hstart h
  | number n => cases n <;> cases h
  | string s => cases s <;> cases h
  | _ => cases h

end

/-! ## Looking a field up -/

/-- Something is looked up among the members of an object just where the fields of one name store it. -/
structure Locates {β : Type} (r : Record α) (name : String) (found : List (String × Json) → β) (get : α → β) :
    Prop where
  kept : ∀ f ∈ r.fields, f.name ≠ name → ∀ b, f.Preserves (get · = b)
  passed : ∀ key v members, (∀ f, r.fields.find? (·.called key) = some f → f.name ≠ name) →
    found ((key, v) :: members) = found members
  taken : ∀ key v members f a b, r.fields.find? (·.called key) = some f → f.name = name →
    name ∉ (r.known members).map (·.1.name) → f.read (Tree.ofJson v) a = .ok b → found ((key, v) :: members) = get b

section
variable {β : Type} {name : String} {found : List (String × Json) → β} {get : α → β}

theorem Locates.get_eq (h : r.Locates name found get) {members : List (String × Json)} {done x : α}
    (hnot : name ∉ (r.known members).map (·.1.name)) (hx : (r.known members).foldlM enter done = .ok x) :
    get x = get done := by
  refine invariant_of_foldlM (P := (get · = get done)) (fun a m b hm => ?_) rfl hx
  have hne : m.1.name ≠ name := fun he => hnot (List.mem_map.2 ⟨m, hm, he⟩)
  exact h.kept m.1 (mem_fields_of_known hm) hne (get done) _ a b

/-- What a record has from a field is what is looked up, if the field is among the members. -/
theorem Locates.found_eq (h : r.Locates name found get) {members : List (String × Json)} {done x : α}
    (honce : ((r.known members).map (·.1.name)).Nodup) (hmem : name ∈ (r.known members).map (·.1.name))
    (hx : (r.known members).foldlM enter done = .ok x) : found members = get x := by
  induction members generalizing done with
  | nil => cases hmem
  | cons member members ih =>
    obtain ⟨key, v⟩ := member
    cases hf : r.fields.find? (·.called key) with
    | none =>
      rw [known_cons_of_none hf] at honce hmem hx
      rw [h.passed key v members fun f hsome => by cases hf.symm.trans hsome]
      exact ih honce hmem hx
    | some f =>
      rw [known_cons_of_some hf] at honce hmem hx
      rw [List.foldlM_cons, bind_eq_ok] at hx
      obtain ⟨next, hnext, hx⟩ := hx
      have honly := List.nodup_cons.1 honce
      by_cases hname : f.name = name
      · have hnot : name ∉ (r.known members).map (·.1.name) := hname ▸ honly.1
        rw [h.taken key v members f done next hf hname hnot hnext, h.get_eq hnot hx]
      · rw [h.passed key v members fun g hg => Option.some.inj (hf.symm.trans hg) ▸ hname]
        exact ih honly.2 ((List.mem_cons.1 hmem).resolve_left (Ne.symm hname)) hx

end

/-! ## Normal forms -/

/-- In which order the members come does not matter. -/
theorem foldlM_enter_perm {members members' : List (Field α × Json)} (hp : members.Perm members')
    (hapart : members.Pairwise fun m m' => m.1.Apart m'.1) {done x : α} (h : members.foldlM enter done = .ok x) :
    members'.foldlM enter done = .ok x := by
  induction hp generalizing done with
  | nil => exact h
  | cons m _ ih =>
    rw [List.foldlM_cons, bind_eq_ok] at h ⊢
    obtain ⟨next, hnext, h⟩ := h
    exact ⟨next, hnext, ih (List.pairwise_cons.1 hapart).2 h⟩
  | swap m m' members =>
    have hboth := (List.pairwise_cons.1 hapart).1 m List.mem_cons_self
    simp only [List.foldlM_cons, bind_eq_ok] at h ⊢
    obtain ⟨next, hnext, next', hnext', h⟩ := h
    obtain ⟨other, hother, hlast⟩ := bind_eq_ok.1 ((hboth _ _ _ _).1 (bind_eq_ok.2 ⟨next, hnext, hnext'⟩))
    exact ⟨other, hother, next', hlast, h⟩
  | trans hp _ ih ih' => exact ih' (hapart.perm hp Field.Apart.symm) (ih hapart h)

/-- No field of the record is in the way of another. -/
def Free (r : Record α) : Prop := r.fields.Pairwise Field.Apart

theorem Free.apart (h : r.Free) {f g : Field α} (hf : f ∈ r.fields) (hg : g ∈ r.fields) (hne : f.name ≠ g.name) :
    f.Apart g :=
  List.Pairwise.forall h hf hg fun he => hne (congrArg Field.name he)

theorem Gives.perm {members members' : List (Field α × Json)} {x : α} (h : r.Gives members x) (hfree : r.Free)
    (hmem : ∀ m ∈ members, m.1 ∈ r.fields) (hp : members.Perm members') : r.Gives members' x := by
  refine ⟨(hp.map _).nodup_iff.1 h.once, fun f hf hreq => (hp.map _).mem_iff.1 (h.complete f hf hreq), ?_⟩
  refine foldlM_enter_perm hp ?_ h.entered
  exact (List.pairwise_map.1 h.once).imp_of_mem fun hm hm' hne => hfree.apart (hmem _ hm) (hmem _ hm') hne

/-- A member with its value in normal form. -/
def normalizeMember (m : Field α × Json) : Field α × Json := (m.1, m.2.normalize)

theorem foldlM_enter_normalize {members : List (Field α × Json)} {done x : α}
    (huniform : ∀ m ∈ members, m.1.Uniform) (h : members.foldlM enter done = .ok x) :
    (members.map normalizeMember).foldlM enter done = .ok x := by
  induction members generalizing done with
  | nil => exact h
  | cons m members ih =>
    rw [List.foldlM_cons, bind_eq_ok] at h
    obtain ⟨next, hnext, h⟩ := h
    rw [List.map_cons, List.foldlM_cons, bind_eq_ok]
    exact ⟨next, huniform m (by simp) _ _ _ hnext, ih (fun m' hm' => huniform m' (by simp [hm'])) h⟩

theorem Gives.normalize {members : List (Field α × Json)} {x : α} (h : r.Gives members x)
    (huniform : ∀ m ∈ members, m.1.Uniform) : r.Gives (members.map normalizeMember) x := by
  have hnames : (members.map normalizeMember).map (·.1.name) = members.map (·.1.name) := by
    rw [List.map_map]
    rfl
  exact ⟨hnames ▸ h.once, hnames ▸ h.complete, foldlM_enter_normalize huniform h.entered⟩

theorem known_normalizeFields (members : List (String × Json)) :
    r.known (normalizeFields members) = (r.known members).map normalizeMember := by
  induction members with
  | nil => rfl
  | cons m members ih =>
    obtain ⟨key, v⟩ := m
    rw [normalizeFields]
    cases hf : r.fields.find? (·.called key) with
    | none => rw [known_cons_of_none hf, known_cons_of_none hf, ih]
    | some f => rw [known_cons_of_some hf, known_cons_of_some hf, ih, List.map_cons, normalizeMember]

theorem known_insertField_of_none {key : String} (v : Json) (members : List (String × Json))
    (h : r.fields.find? (·.called key) = none) : r.known (insertField key v members) = r.known members := by
  induction members with
  | nil => exact known_cons_of_none h
  | cons m members ih =>
    obtain ⟨k, w⟩ := m
    rw [insertField]
    split
    · next hk =>
      subst hk
      rw [known_cons_of_none h, known_cons_of_none h]
    · split
      · exact known_cons_of_none h
      · cases hf : r.fields.find? (·.called k) with
        | none => rw [known_cons_of_none hf, known_cons_of_none hf, ih]
        | some f => rw [known_cons_of_some hf, known_cons_of_some hf, ih]

theorem known_insertField_of_some {key : String} (v : Json) {members : List (String × Json)} {f : Field α}
    (h : r.fields.find? (·.called key) = some f) (hnew : f.name ∉ (r.known members).map (·.1.name)) :
    (r.known (insertField key v members)).Perm ((f, v) :: r.known members) := by
  induction members with
  | nil => rw [insertField, known_cons_of_some h]
  | cons m members ih =>
    obtain ⟨k, w⟩ := m
    rw [insertField]
    split
    · next hk =>
      subst hk
      rw [known_cons_of_some h, List.map_cons] at hnew
      exact absurd List.mem_cons_self hnew
    · split
      · rw [known_cons_of_some h]
      · cases hf : r.fields.find? (·.called k) with
        | none =>
          rw [known_cons_of_none hf] at hnew
          rw [known_cons_of_none hf, known_cons_of_none hf]
          exact ih hnew
        | some g =>
          rw [known_cons_of_some hf, List.map_cons, List.mem_cons, not_or] at hnew
          rw [known_cons_of_some hf, known_cons_of_some hf]
          exact ((ih hnew.2).cons _).trans (.swap _ _ _)

theorem known_foldl_insertField {sorted members : List (String × Json)}
    (h : ((r.known sorted ++ r.known members).map (·.1.name)).Nodup) :
    (r.known (members.foldl (fun sorted m => insertField m.1 m.2 sorted) sorted)).Perm
      (r.known sorted ++ r.known members) := by
  induction members generalizing sorted with
  | nil => rw [List.foldl_nil, show r.known [] = [] from rfl, List.append_nil]
  | cons m members ih =>
    rw [List.foldl_cons]
    cases hf : r.fields.find? (·.called m.1) with
    | none =>
      rw [known_cons_of_none hf] at h ⊢
      have hsame := known_insertField_of_none m.2 sorted hf
      exact hsame ▸ ih (hsame.symm ▸ h)
    | some f =>
      rw [known_cons_of_some hf] at h ⊢
      have hmoved : (r.known sorted ++ (f, m.2) :: r.known members).Perm
          ((f, m.2) :: r.known sorted ++ r.known members) := List.perm_middle
      have hnodup := (hmoved.map (·.1.name)).nodup_iff.1 h
      have hnew : f.name ∉ (r.known sorted).map (·.1.name) := by
        rw [List.cons_append, List.map_cons, List.map_append, List.nodup_cons, List.mem_append, not_or] at hnodup
        exact hnodup.1.1
      have hinsert := (known_insertField_of_some m.2 hf hnew).append_right (r.known members)
      exact (ih ((hinsert.map (·.1.name)).nodup_iff.2 hnodup)).trans (hinsert.trans hmoved.symm)

/-- The fields of a record are kept where the members of an object are put in order, if none comes twice. -/
theorem known_sortFields {members : List (String × Json)} (h : ((r.known members).map (·.1.name)).Nodup) :
    (r.known (sortFields members)).Perm (r.known members) :=
  known_foldl_insertField h

theorem readItems_normalize {fields : List (Field α)} {vs : List Json} {done x : α}
    (huniform : ∀ f ∈ fields, f.Uniform) (h : readItems .closed done fields (Tree.ofItems vs) = .ok x) :
    readItems .closed done fields (Tree.ofItems (normalizeItems vs)) = .ok x := by
  induction fields generalizing vs done with
  | nil =>
    cases vs with
    | nil => exact h
    | cons v vs => cases h
  | cons f fields ih =>
    cases vs with
    | nil => exact h
    | cons v vs =>
      rw [Tree.ofItems, readItems] at h
      obtain ⟨next, hnext, h⟩ := bind_eq_ok.1 h
      rw [normalizeItems, Tree.ofItems, readItems]
      exact bind_eq_ok.2 ⟨next, huniform f (by simp) _ _ _ hnext, ih (fun g hg => huniform g (by simp [hg])) h⟩

/-- A record is read alike from a value and from its normal form. -/
theorem uniform (hfree : r.Free) (huniform : ∀ f ∈ r.fields, f.Uniform) : Json.Uniform r.read := by
  intro v x h
  cases v with
  | object members =>
    have hgives := read_object_iff.1 h
    have hknown (m : Field α × Json) (hm : m ∈ r.known members) : m.1.Uniform :=
      huniform m.1 (mem_fields_of_known hm)
    have hnormal := hgives.normalize hknown
    rw [← known_normalizeFields] at hnormal
    rw [Json.normalize, read_object_iff]
    exact hnormal.perm hfree (fun m => mem_fields_of_known) (known_sortFields hnormal.once).symm
  | array items =>
    rw [Json.normalize]
    exact readItems_normalize huniform h
  | _ => exact h

end Record

/-! ## Values in two forms -/

section
variable {α β : Type} {read : Tree → Reading α} {bare : String → α} {record : Record β} {tagged : β → α}

/-- A value that is written as a text, or as an object with the fields of a record. -/
def TwoForms (read : Tree → Reading α) (bare : String → α) (record : Record β) (tagged : β → α) : Prop :=
  ∀ v x, read (Tree.ofJson v) = .ok x ↔ (∃ s, v = .string s ∧ x = bare s) ∨
    ∃ members b, v = .object members ∧ record.read (Tree.ofJson v) = .ok b ∧ x = tagged b

theorem TwoForms.uniform (h : TwoForms read bare record tagged) (hrecord : Uniform record.read) : Uniform read := by
  intro v x hx
  rw [h] at hx ⊢
  rcases hx with ⟨s, rfl, rfl⟩ | ⟨members, b, rfl, hb, rfl⟩
  · exact .inl ⟨s, rfl, rfl⟩
  · exact .inr ⟨_, b, rfl, hrecord _ _ hb, rfl⟩

end

end StoryPress.Json
