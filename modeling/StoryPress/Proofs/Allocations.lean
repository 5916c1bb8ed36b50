import StoryPress.Proofs.Slugs

/-!
# Labels given out one after the other

A label is the first free candidate for what was asked for, so a series of requests gets labels of their own.

* `Naming.exists_first_candidate`: the search for a fresh name ends at the first candidate that is free;
* `Naming.isIdentifier_candidate`, `LabelBook.isIdentifier_wanted`: what is asked for has the form of a label, and so
  have its candidates;
* `LabelBook.issued_allocateAll`: what a series of requests gets.
-/

namespace StoryPress

namespace Naming

/-- Among the candidates the first free one is taken. -/
theorem exists_first_candidate (taken : List String) (base : String) :
    ∃ n, fresh taken base = candidate base n ∧ candidate base n ∉ taken ∧ ∀ m < n, candidate base m ∈ taken := by
  obtain ⟨n, hn, hnot⟩ := exists_candidate_not_mem taken base
  unfold fresh
  split
  · next m hm =>
    obtain ⟨hfree, -, hbefore⟩ := List.find?_range_eq_some.1 hm
    exact ⟨m, rfl, by simpa using hfree, fun k hk => by simpa using hbefore k hk⟩
  · next hm => exact absurd (List.find?_eq_none.1 hm n hn) (by simpa using hnot)

/-! ## The form of labels -/

/-- A small letter, then small letters, digits and underscores. -/
def IsIdentifier (s : String) : Prop :=
  ∃ c cs, s.toList = c :: cs ∧ c.isLower = true ∧ ∀ d ∈ cs, d = '_' ∨ WordChar d

theorem mem_joinWords {ws : List (List Char)} {c : Char} (h : c ∈ joinWords ws) : c = '_' ∨ ∃ w ∈ ws, c ∈ w := by
  induction ws with
  | nil => cases h
  | cons w ws ih =>
    by_cases hws : ws = []
    · rw [hws] at h
      exact .inr ⟨w, List.mem_cons_self, h⟩
    · rw [joinWords_cons hws, List.mem_append, List.mem_cons] at h
      rcases h with h | h | h
      · exact .inr ⟨w, List.mem_cons_self, h⟩
      · exact .inl h
      · exact (ih h).imp_right fun ⟨v, hv, hc⟩ => ⟨v, List.mem_cons_of_mem w hv, hc⟩

theorem mem_slug {s : String} {c : Char} (h : c ∈ (slug s).toList) : c = '_' ∨ WordChar c := by
  rw [toList_slug] at h
  exact (mem_joinWords h).imp_right fun ⟨w, hw, hc⟩ => (isSlugWord_of_mem_words hw).chars c hc

/-- A slug begins with the first character of its first word. -/
theorem wordChar_head_slug {s : String} {c : Char} {cs : List Char} (h : (slug s).toList = c :: cs) : WordChar c := by
  rw [toList_slug] at h
  cases hws : words s.toList with
  | nil =>
    rw [hws] at h
    cases h
  | cons w ws =>
    have hw : IsSlugWord w := isSlugWord_of_mem_words (hws ▸ List.mem_cons_self)
    obtain ⟨d, ds, rfl⟩ := List.exists_cons_of_ne_nil hw.ne_nil
    have hd : d = c := by
      rw [hws] at h
      by_cases hnil : ws = []
      · rw [hnil] at h
        exact (List.cons.inj h).1
      · rw [joinWords_cons hnil] at h
        exact (List.cons.inj h).1
    exact hd ▸ hw.chars d List.mem_cons_self

theorem isIdentifier_of_all {s : String} {c : Char} {cs : List Char} (h : s.toList = c :: cs) (hc : c.isLower = true)
    (hcs : (cs.all fun d => decide (d = '_' ∨ WordChar d)) = true) : IsIdentifier s :=
  ⟨c, cs, h, hc, fun d hd => of_decide_eq_true (List.all_eq_true.1 hcs d hd)⟩

theorem IsIdentifier.append {s t : String} (h : IsIdentifier s) (ht : ∀ d ∈ t.toList, d = '_' ∨ WordChar d) :
    IsIdentifier (s ++ t) := by
  obtain ⟨c, cs, hs, hc, hcs⟩ := h
  refine ⟨c, cs ++ t.toList, by rw [String.toList_append, hs, List.cons_append], hc, ?_⟩
  intro d hd
  rcases List.mem_append.1 hd with hd | hd
  · exact hcs d hd
  · exact ht d hd

theorem isIdentifier_candidate {base : String} (h : IsIdentifier base) (n : Nat) : IsIdentifier (candidate base n) := by
  cases n with
  | zero => exact h
  | succ n =>
    refine (h.append (t := "_") fun d hd => .inl (List.mem_singleton.1 hd)).append fun d hd => .inr ?_
    rw [Nat.toString_eq_repr, Nat.toList_repr] at hd
    exact (isSlugWord_digits (n + 2)).chars d hd

end Naming

namespace LabelBook

open Naming

/-- The leads of the labels of scenes and of routes. -/
def leads : List String := ["scene_", "pov_"]

theorem isIdentifier_lead : ∀ lead ∈ leads,
    IsIdentifier lead ∧ IsIdentifier (String.ofList (lead.toList.reverse.dropWhile (· == '_')).reverse) := by
  intro lead hlead
  have hform : lead = "scene_" ∨ lead = "pov_" := by simpa [leads] using hlead
  rcases hform with rfl | rfl
  · exact ⟨isIdentifier_of_all rfl (by decide) (by decide), isIdentifier_of_all rfl (by decide) (by decide)⟩
  · exact ⟨isIdentifier_of_all rfl (by decide) (by decide), isIdentifier_of_all rfl (by decide) (by decide)⟩

/-- What is asked for has the form of a label. -/
theorem isIdentifier_wanted (raw : String) {lead : String} (hlead : lead ∈ leads) : IsIdentifier (wanted raw lead) := by
  obtain ⟨hwhole, hbare⟩ := isIdentifier_lead lead hlead
  unfold wanted
  dsimp only
  split
  · exact hbare
  · next c cs hslug =>
    split
    · exact hwhole.append fun d hd => mem_slug hd
    · next hdigit =>
      refine ⟨c, cs, hslug, (wordChar_head_slug hslug).resolve_right hdigit, fun d hd => mem_slug (s := raw) ?_⟩
      rw [hslug]
      exact List.mem_cons_of_mem c hd

theorem not_isDigit_of_isAlpha {c : Char} (h : c.isAlpha = true) : ¬c.isDigit = true := by
  intro hd
  simp only [Char.isDigit, Bool.and_eq_true, decide_eq_true_eq, ge_iff_le, UInt32.le_iff_toNat_le] at hd
  have hdigit : 48 ≤ c.val.toNat ∧ c.val.toNat ≤ 57 := hd
  have halpha : c.isUpper = true ∨ c.isLower = true := Bool.or_eq_true_iff.1 h
  rcases halpha with hup | hlow
  · have hrange : c.val ≥ 'A'.val ∧ c.val ≤ 'Z'.val := of_decide_eq_true hup
    simp only [ge_iff_le, UInt32.le_iff_toNat_le] at hrange
    have hupper : 65 ≤ c.val.toNat ∧ c.val.toNat ≤ 90 := hrange
    omega
  · have hrange : (c.val ≥ 'a'.val && c.val ≤ 'z'.val) = true := hlow
    simp only [Bool.and_eq_true, decide_eq_true_eq, ge_iff_le, UInt32.le_iff_toNat_le] at hrange
    have hlower : 97 ≤ c.val.toNat ∧ c.val.toNat ≤ 122 := hrange
    omega

/-- A slug that begins with a letter is asked for as it is. -/
theorem wanted_eq_slug {raw : String} {c : Char} {cs : List Char} (h : (slug raw).toList = c :: cs)
    (hc : c.isAlpha = true) (lead : String) : wanted raw lead = slug raw := by
  unfold wanted
  simp only [h, if_neg (not_isDigit_of_isAlpha hc)]

theorem isIdentifier_allocate (book : LabelBook) (raw : String) {lead : String} (hlead : lead ∈ leads) :
    IsIdentifier (book.allocate raw lead).1 := by
  obtain ⟨n, hn, -⟩ := exists_first_candidate book.used (wanted raw lead)
  have hlabel : (book.allocate raw lead).1 = candidate (wanted raw lead) n := hn
  rw [hlabel]
  exact isIdentifier_candidate (isIdentifier_wanted raw hlead) n

/-! ## Series of requests -/

/-- Gives out labels for texts and leads, one after the other. -/
def allocateAll (book : LabelBook) : List (String × String) → List String × LabelBook
  | [] => ([], book)
  | (raw, lead) :: rest =>
    let (label, book) := book.allocate raw lead
    let (labels, book) := allocateAll book rest
    (label :: labels, book)

theorem allocateAll_cons (book : LabelBook) (raw lead : String) (rest : List (String × String)) :
    book.allocateAll ((raw, lead) :: rest) =
      ((book.allocate raw lead).1 :: ((book.allocate raw lead).2.allocateAll rest).1,
        ((book.allocate raw lead).2.allocateAll rest).2) := rfl

theorem allocateAll_append (book : LabelBook) (before after : List (String × String)) :
    book.allocateAll (before ++ after) =
      ((book.allocateAll before).1 ++ ((book.allocateAll before).2.allocateAll after).1,
        ((book.allocateAll before).2.allocateAll after).2) := by
  induction before generalizing book with
  | nil => rfl
  | cons request before ih => rw [List.cons_append, allocateAll_cons, ih, allocateAll_cons, List.cons_append]

theorem length_allocateAll (book : LabelBook) (requests : List (String × String)) :
    (book.allocateAll requests).1.length = requests.length := by
  induction requests generalizing book with
  | nil => rfl
  | cons request requests ih => rw [allocateAll_cons, List.length_cons, ih, List.length_cons]

/-- A book holds what it held and what it gave out, last first. -/
theorem used_allocateAll (book : LabelBook) (requests : List (String × String)) :
    (book.allocateAll requests).2.used = (book.allocateAll requests).1.reverse ++ book.used := by
  induction requests generalizing book with
  | nil => rfl
  | cons request requests ih =>
    rw [allocateAll_cons, ih, used_allocate, List.reverse_cons, List.append_assoc, List.singleton_append]

theorem isUsed_allocateAll {book : LabelBook} {requests : List (String × String)} {label : String} :
    (book.allocateAll requests).2.isUsed label = true ↔
      label ∈ book.used ∨ label ∈ (book.allocateAll requests).1 := by
  rw [isUsed, List.contains_iff_mem, used_allocateAll, List.mem_append, List.mem_reverse, or_comm]

/-- No label is given out twice, and none that was held before. -/
theorem nodup_allocateAll (book : LabelBook) (requests : List (String × String)) :
    (book.allocateAll requests).1.Nodup ∧ ∀ label ∈ (book.allocateAll requests).1, label ∉ book.used := by
  induction requests generalizing book with
  | nil => exact ⟨List.nodup_nil, by simp [allocateAll]⟩
  | cons request requests ih =>
    obtain ⟨hnodup, hfree⟩ := ih (book.allocate request.1 request.2).2
    rw [used_allocate] at hfree
    rw [allocateAll_cons]
    refine ⟨List.nodup_cons.2 ⟨fun hmem => hfree _ hmem List.mem_cons_self, hnodup⟩, ?_⟩
    intro label hlabel
    rcases List.mem_cons.1 hlabel with rfl | hlabel
    · exact allocate_not_mem book request.1 request.2
    · exact fun hmem => hfree label hlabel (List.mem_cons_of_mem _ hmem)

theorem isIdentifier_of_mem_allocateAll {book : LabelBook} {requests : List (String × String)}
    (hleads : ∀ q ∈ requests, q.2 ∈ leads) {label : String} (h : label ∈ (book.allocateAll requests).1) :
    IsIdentifier label := by
  induction requests generalizing book with
  | nil => cases h
  | cons request requests ih =>
    rw [allocateAll_cons, List.mem_cons] at h
    rcases h with rfl | h
    · exact isIdentifier_allocate book request.1 (hleads request List.mem_cons_self)
    · exact ih (fun q hq => hleads q (List.mem_cons_of_mem _ hq)) h

/-- What a request gets after others, as far as they have got labels. -/
structure Granted (taken : List String) (raw lead label : String) : Prop where
  /-- The search ends at the first candidate that is free. -/
  first_free : ∃ n, label = candidate (wanted raw lead) n ∧ label ∉ taken ∧
    ∀ m < n, candidate (wanted raw lead) m ∈ taken
  /-- A slug that begins with a letter and is free is the label. -/
  eq_slug : ∀ c cs, (slug raw).toList = c :: cs → c.isAlpha = true → slug raw ∉ taken → label = slug raw

theorem Granted.congr {taken taken' : List String} {raw lead label : String} (h : Granted taken raw lead label)
    (hsame : ∀ l, l ∈ taken' ↔ l ∈ taken) : Granted taken' raw lead label := by
  constructor
  · simp only [hsame]
    exact h.first_free
  · simp only [hsame]
    exact h.eq_slug

theorem granted_allocate (book : LabelBook) (raw lead : String) :
    Granted book.used raw lead (book.allocate raw lead).1 := by
  constructor
  · obtain ⟨n, hn, hfree, hbefore⟩ := exists_first_candidate book.used (wanted raw lead)
    rw [← hn] at hfree
    exact ⟨n, hn, hfree, hbefore⟩
  · intro c cs hslug hc hfree
    have hwanted := wanted_eq_slug hslug hc lead
    rw [← hwanted] at hfree
    exact (fresh_eq_self hfree).trans hwanted

/-- What a series of requests gets from a book of its own. -/
structure Issued (requests : List (String × String)) (labels : List String) (book : LabelBook) : Prop where
  length_eq : labels.length = requests.length
  nodup : labels.Nodup
  not_reserved : ∀ label ∈ labels, label ∉ reservedLabels
  identifiers : ∀ label ∈ labels, IsIdentifier label
  isUsed_iff : ∀ label, book.isUsed label = true ↔ label ∈ reservedLabels ∨ label ∈ labels
  granted : ∀ before raw lead after, requests = before ++ (raw, lead) :: after → ∃ label,
    labels[before.length]? = some label ∧ Granted (reservedLabels ++ labels.take before.length) raw lead label

/-- Every request gets a label of its own, with the form of a label: the first candidate that is neither reserved nor
given out. -/
theorem issued_allocateAll (requests : List (String × String)) (hleads : ∀ q ∈ requests, q.2 ∈ leads) :
    Issued requests (allocateAll {} requests).1 (allocateAll {} requests).2 := by
  obtain ⟨hnodup, hfree⟩ := nodup_allocateAll {} requests
  refine ⟨length_allocateAll {} requests, hnodup, hfree, fun _ => isIdentifier_of_mem_allocateAll hleads,
    fun label => isUsed_allocateAll, ?_⟩
  rintro before raw lead after rfl
  have hlength := length_allocateAll {} before
  refine ⟨((allocateAll {} before).2.allocate raw lead).1, ?_, (granted_allocate _ raw lead).congr ?_⟩
  · rw [allocateAll_append, allocateAll_cons, ← hlength, List.getElem?_append_right (Nat.le_refl _), Nat.sub_self]
    rfl
  · intro l
    rw [allocateAll_append, ← hlength, List.take_left, used_allocateAll, List.mem_append, List.mem_append,
      List.mem_reverse, or_comm]

/-- Texts whose slugs clash with each other, with numbered names and with reserved labels, or are no labels. -/
def clashingTexts : List (String × String) :=
  [("x_2", "scene_"), ("x", "scene_"), ("X!", "pov_"), ("1st", "pov_"), ("?", "scene_"), (" Start", "scene_")]

theorem issued_of_clashing_texts :
    (∀ q ∈ clashingTexts, q.2 ∈ leads) ∧
      Issued clashingTexts ["x_2", "x", "x_3", "pov_1st", "scene", "start_2"] (allocateAll {} clashingTexts).2 := by
  have hleads : ∀ q ∈ clashingTexts, q.2 ∈ leads := by decide
  have hlabels : (allocateAll {} clashingTexts).1 = ["x_2", "x", "x_3", "pov_1st", "scene", "start_2"] := by decide
  have hissued := issued_allocateAll clashingTexts hleads
  rw [hlabels] at hissued
  exact ⟨hleads, hissued⟩

end LabelBook

end StoryPress
