import Mathlib.Data.List.Forall2
import StoryPress.Failure

/-!
# Computations that can fail

* `bind_eq_ok`: a sequence succeeds if each of its parts does;
* `invariant_of_foldlM`: what each step of a fold keeps, a fold that succeeds keeps;
* `mapM_eq_ok_iff`: the results are those of the inputs, one by one;
* `map_eq_of_mapM`: what each step tells of its input, the whole list tells of the inputs;
* `exists_of_mem_mapM`, `exists_of_mapM_error`: each result, and a failure, comes from one of the inputs;
* `exists_of_mapM_eq_ok`: each input has a result.
-/

namespace StoryPress

universe u

theorem bind_eq_ok {ε α β : Type u} {x : Except ε α} {f : α → Except ε β} {b : β} :
    (x >>= f) = .ok b ↔ ∃ a, x = .ok a ∧ f a = .ok b := by
  cases x with
  | error e => simp [bind, Except.bind]
  | ok a => simp [bind, Except.bind]

theorem bind_eq_error {ε α β : Type u} {x : Except ε α} {f : α → Except ε β} {e : ε} :
    (x >>= f) = .error e ↔ x = .error e ∨ ∃ a, x = .ok a ∧ f a = .error e := by
  cases x <;> simp [bind, Except.bind]

theorem pure_eq_ok {ε α : Type u} {a b : α} : (pure a : Except ε α) = .ok b ↔ a = b := by
  simp [pure, Except.pure]

theorem map_eq_ok {ε α β : Type u} {x : Except ε α} {f : α → β} {b : β} :
    f <$> x = .ok b ↔ ∃ a, x = .ok a ∧ f a = b := by
  cases x <;> simp [Functor.map, Except.map]

theorem exists_of_isOk {ε α : Type u} {x : Except ε α} (h : x.isOk = true) : ∃ a, x = .ok a := by
  cases x with
  | ok a => exact ⟨a, rfl⟩
  | error e => cases h

theorem invariant_of_foldlM {ε σ α : Type u} {f : σ → α → Except ε σ} {P : σ → Prop} {as : List α}
    (step : ∀ s a s', a ∈ as → P s → f s a = .ok s' → P s') {s s' : σ} (h : P s)
    (hr : as.foldlM f s = .ok s') : P s' := by
  induction as generalizing s with
  | nil =>
    rw [List.foldlM_nil, pure_eq_ok] at hr
    exact hr ▸ h
  | cons a as ih =>
    rw [List.foldlM_cons, bind_eq_ok] at hr
    obtain ⟨t, ht, hr⟩ := hr
    exact ih (fun s b s' hb => step s b s' (by simp [hb])) (step s a t (by simp) h ht) hr

theorem exists_of_forall₂ {α β : Type} {R : α → β → Prop} {as : List α} {bs : List β} (h : List.Forall₂ R as bs)
    {b : β} (hb : b ∈ bs) : ∃ a ∈ as, R a b := by
  induction h with
  | nil => cases hb
  | cons hr _ ih =>
    rcases List.mem_cons.1 hb with rfl | hb
    · exact ⟨_, List.mem_cons_self, hr⟩
    · obtain ⟨a, ha, hab⟩ := ih hb
      exact ⟨a, List.mem_cons_of_mem _ ha, hab⟩

theorem map_eq_of_forall₂ {α β γ : Type} {f : α → γ} {g : β → γ} {as : List α} {bs : List β}
    (h : List.Forall₂ (fun a b => g b = f a) as bs) : bs.map g = as.map f := by
  induction h with
  | nil => rfl
  | cons hab _ ih => rw [List.map_cons, List.map_cons, hab, ih]

theorem mapM_eq_ok_iff {ε α β : Type} {f : α → Except ε β} {as : List α} {bs : List β} :
    as.mapM f = .ok bs ↔ List.Forall₂ (fun a b => f a = .ok b) as bs := by
  induction as generalizing bs with
  | nil => rw [List.mapM_nil, pure_eq_ok, List.forall₂_nil_left_iff, eq_comm]
  | cons a as ih =>
    simp only [List.mapM_cons, bind_eq_ok, pure_eq_ok, ih, List.forall₂_cons_left_iff]
    constructor
    · rintro ⟨b, hb, bs, hbs, rfl⟩
      exact ⟨b, bs, hb, hbs, rfl⟩
    · rintro ⟨b, bs, hb, hbs, rfl⟩
      exact ⟨b, hb, bs, hbs, rfl⟩

theorem map_eq_of_mapM {ε α β γ : Type} {f : α → Except ε β} {g : α → γ} {h : β → γ}
    (hf : ∀ a b, f a = .ok b → h b = g a) {as : List α} {bs : List β} (hr : as.mapM f = .ok bs) :
    bs.map h = as.map g :=
  map_eq_of_forall₂ ((mapM_eq_ok_iff.1 hr).imp hf)

theorem exists_of_mem_mapM {ε α β : Type} {f : α → Except ε β} {as : List α} {bs : List β} (h : as.mapM f = .ok bs)
    {b : β} (hb : b ∈ bs) : ∃ a ∈ as, f a = .ok b :=
  exists_of_forall₂ (mapM_eq_ok_iff.1 h) hb

theorem exists_of_mapM_eq_ok {ε α β : Type} {f : α → Except ε β} {as : List α} {bs : List β} (h : as.mapM f = .ok bs)
    {a : α} (ha : a ∈ as) : ∃ b ∈ bs, f a = .ok b :=
  exists_of_forall₂ (mapM_eq_ok_iff.1 h).flip ha

theorem exists_of_mapM_error {ε α β : Type} {f : α → Except ε β} {as : List α} {e : ε} (h : as.mapM f = .error e) :
    ∃ a ∈ as, f a = .error e := by
  induction as with
  | nil => cases h
  | cons a as ih =>
    rw [List.mapM_cons] at h
    rcases bind_eq_error.1 h with ha | ⟨b, -, h⟩
    · exact ⟨a, by simp, ha⟩
    · rcases bind_eq_error.1 h with has | ⟨bs, -, h⟩
      · obtain ⟨a', ha', he⟩ := ih has
        exact ⟨a', by simp [ha'], he⟩
      · cases h

theorem mapM_congr {ε α β : Type} {f g : α → Except ε β} {as : List α} (h : ∀ a ∈ as, f a = g a) :
    as.mapM f = as.mapM g := by
  induction as with
  | nil => rfl
  | cons a as ih =>
    rw [List.mapM_cons, List.mapM_cons, h a (by simp), ih fun b hb => h b (by simp [hb])]

theorem mapM_map_eq_ok {ε α β γ : Type} {f : β → Except ε γ} {g : α → β} {k : α → γ} {as : List α}
    (h : ∀ a ∈ as, f (g a) = .ok (k a)) : (as.map g).mapM f = .ok (as.map k) :=
  calc (as.map g).mapM f = as.mapM (f ∘ g) := List.mapM_map
    _ = as.mapM fun a => pure (k a) := mapM_congr h
    _ = .ok (as.map k) := List.mapM_pure

end StoryPress
