import StoryPress.Route.LabelBook

/-!
# Names that are given out

* `fresh_not_mem`: a fresh name is not taken;
* `wordChar_toLower`, `nameChar_of_mem_slug`, `nameChar_of_mem_allocate`: slugs and labels are made of small letters,
  digits and underscores;
* `allocate_not_mem`: a label book gives out no label twice.
-/

namespace StoryPress.Naming

theorem repr_injective {m n : Nat} (h : m.repr = n.repr) : m = n := by
  have hd : Nat.toDigits 10 m = Nat.toDigits 10 n := by
    rw [← Nat.toList_repr, ← Nat.toList_repr, h]
  have hm := Nat.ofDigitChars_toDigits (n := m) (show 1 < 10 by omega) (Nat.le_refl 10)
  rw [hd, Nat.ofDigitChars_toDigits (by omega) (Nat.le_refl 10)] at hm
  exact hm.symm

theorem candidate_succ (base : String) (n : Nat) :
    (candidate base (n + 1)).toList = base.toList ++ '_' :: Nat.toDigits 10 (n + 2) := by
  simp [candidate, Nat.toString_eq_repr]

theorem candidate_injective {base : String} {m n : Nat} (h : candidate base m = candidate base n) :
    m = n := by
  have hl := congrArg String.toList h
  cases m with
  | zero =>
    cases n with
    | zero => rfl
    | succ n =>
      rw [candidate_succ] at hl
      simp [candidate] at hl
  | succ m =>
    cases n with
    | zero =>
      rw [candidate_succ] at hl
      simp [candidate] at hl
    | succ n =>
      rw [candidate_succ, candidate_succ, List.append_cancel_left_eq, List.cons.injEq,
        ← Nat.toList_repr, ← Nat.toList_repr, String.toList_inj] at hl
      have := repr_injective hl.2
      omega

/-- Among one more candidates than there are taken names one is free. -/
theorem exists_candidate_not_mem (taken : List String) (base : String) :
    ∃ n ∈ List.range (taken.length + 1), candidate base n ∉ taken := by
  apply Classical.byContradiction
  intro hall
  have hsub : (List.range (taken.length + 1)).map (candidate base) ⊆ taken := by
    intro x hx
    obtain ⟨n, hn, rfl⟩ := List.mem_map.1 hx
    exact Classical.byContradiction fun hnot => hall ⟨n, hn, hnot⟩
  have hnodup : ((List.range (taken.length + 1)).map (candidate base)).Nodup :=
    List.Pairwise.map _ (fun _ _ hne he => hne (candidate_injective he)) List.nodup_range
  have := hnodup.length_le_of_subset hsub
  rw [List.length_map, List.length_range] at this
  omega

theorem fresh_eq_candidate (taken : List String) (base : String) :
    ∃ n, fresh taken base = candidate base n ∧ candidate base n ∉ taken := by
  obtain ⟨n, hn, hnot⟩ := exists_candidate_not_mem taken base
  unfold fresh
  split
  · next m hm => exact ⟨m, rfl, by simpa using List.find?_some hm⟩
  · next hm => exact absurd (List.find?_eq_none.1 hm n hn) (by simpa using hnot)

theorem fresh_not_mem (taken : List String) (base : String) : fresh taken base ∉ taken := by
  obtain ⟨n, hf, hn⟩ := fresh_eq_candidate taken base
  rwa [hf]

/-! ## Characters -/

/-- The characters of slugs and labels. -/
def NameChar (c : Char) : Prop := c = '_' ∨ c.isAlphanum = true

instance : DecidablePred NameChar := fun _ => inferInstanceAs (Decidable (_ ∨ _))

theorem nameChar_of_all {s : String} (h : (s.toList.all fun c => decide (NameChar c)) = true) :
    ∀ c ∈ s.toList, NameChar c := by
  intro c hc
  exact of_decide_eq_true (List.all_eq_true.1 h c hc)

theorem NameChar.ne {c d : Char} (h : NameChar c) (hd : d ≠ '_') (ha : d.isAlphanum = false) : c ≠ d := by
  rintro rfl
  rcases h with h | h
  · exact hd h
  · rw [ha] at h
    cases h

/-- The characters of the words in slugs: small letters and digits. -/
def WordChar (c : Char) : Prop := c.isLower = true ∨ c.isDigit = true

instance instDecidableWordChar : DecidablePred WordChar := fun _ => inferInstanceAs (Decidable (_ ∨ _))

theorem WordChar.toNat {c : Char} (h : WordChar c) :
    97 ≤ c.toNat ∧ c.toNat ≤ 122 ∨ 48 ≤ c.toNat ∧ c.toNat ≤ 57 := by
  rcases h with h | h
  · have hrange : (c.val ≥ 'a'.val && c.val ≤ 'z'.val) = true := h
    simp only [Bool.and_eq_true, decide_eq_true_eq, ge_iff_le, UInt32.le_iff_toNat_le] at hrange
    exact .inl hrange
  · simp only [Char.isDigit, Bool.and_eq_true, decide_eq_true_eq, ge_iff_le, UInt32.le_iff_toNat_le] at h
    exact .inr h

theorem WordChar.isAlphanum {c : Char} (h : WordChar c) : c.isAlphanum = true := by
  rcases h with h | h
  · have halpha : c.isAlpha = true := Bool.or_eq_true_iff.2 (.inr h)
    exact Bool.or_eq_true_iff.2 (.inl halpha)
  · exact Bool.or_eq_true_iff.2 (.inr h)

theorem WordChar.toLower_eq {c : Char} (h : WordChar c) : c.toLower = c := by
  have hn := h.toNat
  unfold Char.toLower
  split
  · next hup =>
    obtain ⟨hlo, hhi⟩ := hup
    simp only [ge_iff_le, UInt32.le_iff_toNat_le] at hlo hhi
    have hupper : 65 ≤ c.toNat ∧ c.toNat ≤ 90 := ⟨hlo, hhi⟩
    omega
  · rfl

/-- Lower case makes a letter or digit a character of words. -/
theorem wordChar_toLower {c : Char} (h : c.isAlphanum = true) : WordChar c.toLower := by
  unfold Char.toLower
  split
  · next hup =>
    obtain ⟨hlo, hhi⟩ := hup
    simp only [UInt32.le_iff_toNat_le, ge_iff_le] at hlo hhi
    have hval : (c.val + ('a'.val - 'A'.val)).toNat = c.val.toNat + 32 := by
      rw [UInt32.toNat_add, show ('a'.val - 'A'.val).toNat = 32 from rfl]
      have : 'Z'.val.toNat = 90 := rfl
      omega
    have ha : 'A'.val.toNat = 65 := rfl
    have hz : 'Z'.val.toNat = 90 := rfl
    have hlower : (c.val + ('a'.val - 'A'.val)) ≥ 'a'.val ∧ (c.val + ('a'.val - 'A'.val)) ≤ 'z'.val := by
      constructor
      · rw [ge_iff_le, UInt32.le_iff_toNat_le, hval, show 'a'.val.toNat = 97 from rfl]
        omega
      · rw [UInt32.le_iff_toNat_le, hval, show 'z'.val.toNat = 122 from rfl]
        omega
    exact .inl (Bool.and_eq_true_iff.2 ⟨decide_eq_true hlower.1, decide_eq_true hlower.2⟩)
  · next hno =>
    rcases Bool.or_eq_true_iff.1 h with h | h
    · rcases Bool.or_eq_true_iff.1 h with h | h
      · exact absurd (of_decide_eq_true h) hno
      · exact .inl h
    · exact .inr h

theorem nameChar_of_mem_slugRest {gap : Bool} {cs : List Char} {c : Char} (h : c ∈ slugRest gap cs) :
    NameChar c := by
  induction cs generalizing gap with
  | nil => simp [slugRest] at h
  | cons d ds ih =>
    by_cases hd : d.isAlphanum = true
    · have hl : NameChar d.toLower := .inr (wordChar_toLower hd).isAlphanum
      cases gap with
      | false =>
        simp only [slugRest, hd, if_true, Bool.false_eq_true, if_false, List.mem_cons] at h
        rcases h with rfl | h
        · exact hl
        · exact ih h
      | true =>
        simp only [slugRest, hd, if_true, List.mem_cons] at h
        rcases h with rfl | rfl | h
        · exact .inl rfl
        · exact hl
        · exact ih h
    · simp only [slugRest, hd] at h
      exact ih h

theorem nameChar_of_mem_slug {s : String} {c : Char} (h : c ∈ (slug s).toList) : NameChar c := by
  simp only [slug, slugChars, String.toList_ofList] at h
  exact nameChar_of_mem_slugRest h

theorem nameChar_of_mem_candidate {base : String} (h : ∀ c ∈ base.toList, NameChar c) {n : Nat} {c : Char}
    (hc : c ∈ (candidate base n).toList) : NameChar c := by
  cases n with
  | zero => exact h c hc
  | succ n =>
    rw [candidate_succ, List.mem_append, List.mem_cons] at hc
    rcases hc with hc | rfl | hc
    · exact h c hc
    · exact .inl rfl
    · exact .inr (by simp [Char.isAlphanum, Nat.isDigit_of_mem_toDigits (by omega) (by omega) hc])

theorem nameChar_of_mem_fresh {taken : List String} {base : String} (h : ∀ c ∈ base.toList, NameChar c)
    {c : Char} (hc : c ∈ (fresh taken base).toList) : NameChar c := by
  obtain ⟨n, hf, -⟩ := fresh_eq_candidate taken base
  rw [hf] at hc
  exact nameChar_of_mem_candidate h hc

end StoryPress.Naming

namespace StoryPress.LabelBook

open Naming

theorem nameChar_of_mem_wanted {raw lead : String} (hlead : ∀ c ∈ lead.toList, NameChar c) {c : Char}
    (h : c ∈ (wanted raw lead).toList) : NameChar c := by
  simp only [wanted] at h
  split at h
  · rw [String.toList_ofList] at h
    exact hlead c (List.mem_reverse.1 ((List.dropWhile_sublist _).subset (List.mem_reverse.1 h)))
  · split at h
    · rw [String.toList_append, List.mem_append] at h
      exact h.elim (hlead c) nameChar_of_mem_slug
    · exact nameChar_of_mem_slug h

theorem nameChar_of_mem_allocate {book : LabelBook} {raw lead : String}
    (hlead : ∀ c ∈ lead.toList, NameChar c) {c : Char} (h : c ∈ (book.allocate raw lead).1.toList) :
    NameChar c :=
  nameChar_of_mem_fresh (fun _ => nameChar_of_mem_wanted hlead) h

theorem allocate_not_mem (book : LabelBook) (raw lead : String) : (book.allocate raw lead).1 ∉ book.used :=
  fresh_not_mem _ _

theorem used_allocate (book : LabelBook) (raw lead : String) :
    (book.allocate raw lead).2.used = (book.allocate raw lead).1 :: book.used := rfl

end StoryPress.LabelBook
