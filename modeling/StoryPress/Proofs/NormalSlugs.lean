import StoryPress.Naming.Component
import StoryPress.Proofs.Slugs

/-!
# Slugs as normal forms

* `Naming.words_eq_runs`: the words of a text are its runs of letters and digits, in lower case;
* `Naming.slug_eq_self_iff`: a text is its own slug if and only if it has the form of one;
* `Naming.slug_joined`: the slug of two texts with an underscore between them is made of theirs;
* `Naming.isSafeComponent_of_nameChar`: letters, digits and underscores make a safe name for a file;
* `Naming.normalizes_slug`: all of this for every text.
-/

namespace StoryPress.Naming

/-! ## Words and runs -/

/-- The maximal runs of letters and digits of a text, in order. -/
def runs (cs : List Char) : List (List Char) := (cs.splitOnP fun c => !c.isAlphanum).filter fun run => !run.isEmpty

/-- The word that is being read goes on up to the first separator. -/
theorem wordsFrom_eq_runs (word cs : List Char) :
    wordsFrom word cs = (((cs.splitOnP fun c => !c.isAlphanum).map fun run => run.map Char.toLower).modifyHead
      (word ++ ·)).filter fun run => !run.isEmpty := by
  induction cs generalizing word with
  | nil => cases word <;> simp [wordsFrom]
  | cons c cs ih =>
    obtain ⟨run, rest, hsplit⟩ := List.exists_cons_of_ne_nil
      (List.splitOnP_ne_nil (fun c : Char => !c.isAlphanum) cs)
    by_cases hc : c.isAlphanum = true
    · simp [wordsFrom, ih, hsplit, hc, List.splitOnP_cons_eq_if_modifyHead]
    · cases word <;> simp [wordsFrom, ih, hsplit, hc, List.splitOnP_cons_eq_if_modifyHead]

/-- The words of a text are its runs of letters and digits, in lower case. -/
theorem words_eq_runs (cs : List Char) : words cs = (runs cs).map fun run => run.map Char.toLower := by
  have hnone (rows : List (List Char)) : rows.modifyHead ([] ++ ·) = rows := by cases rows <;> rfl
  have hempty : (fun run : List Char => !run.isEmpty) ∘ (fun run => run.map Char.toLower) =
      fun run : List Char => !run.isEmpty := by
    funext run
    cases run <;> rfl
  rw [words, wordsFrom_eq_runs, hnone, List.filter_map, hempty, runs]

/-! ## The form of slugs -/

/-- Words of small letters and digits with single underscores between them, or nothing. -/
def HasSlugForm (s : String) : Prop := ∃ ws : List (List Char), (∀ w ∈ ws, IsSlugWord w) ∧ s.toList = joinWords ws

theorem hasSlugForm_slug (s : String) : HasSlugForm (slug s) :=
  ⟨words s.toList, fun _ => isSlugWord_of_mem_words, toList_slug s⟩

/-- A text is its own slug if and only if it has the form of one. -/
theorem slug_eq_self_iff {s : String} : slug s = s ↔ HasSlugForm s := by
  constructor
  · intro h
    rw [← h]
    exact hasSlugForm_slug s
  · rintro ⟨ws, hws, hs⟩
    rw [← String.toList_inj, toList_slug, hs, words_joinWords hws]

theorem slug_eq_empty_iff {s : String} : slug s = "" ↔ words s.toList = [] := by
  constructor
  · intro h
    rw [← words_slug, h]
    rfl
  · intro h
    rw [← String.toList_inj, toList_slug, h]
    rfl

/-- The slug of two texts with an underscore between them is made of their slugs, as far as there are any. -/
theorem slug_joined (s t : String) :
    slug (s ++ "_" ++ t) = Text.joinWith "_" ([slug s, slug t].filter fun part => part != "") := by
  have htext : (s ++ "_" ++ t).toList = s.toList ++ '_' :: t.toList := by simp
  have hwords : words (s ++ "_" ++ t).toList = words s.toList ++ words t.toList := by
    rw [htext, words_append (by decide)]
  by_cases hs : slug s = ""
  · have heq : slug (s ++ "_" ++ t) = slug t := by
      rw [slug_eq_iff, hwords, slug_eq_empty_iff.1 hs, List.nil_append]
    by_cases ht : slug t = "" <;> simp [heq, hs, ht, Text.joinWith]
  · by_cases ht : slug t = ""
    · have heq : slug (s ++ "_" ++ t) = slug s := by
        rw [slug_eq_iff, hwords, slug_eq_empty_iff.1 ht, List.append_nil]
      simp [heq, hs, ht, Text.joinWith]
    · rw [slug_append (by decide) htext hs ht]
      simp [hs, ht, Text.joinWith]

/-! ## Names of files -/

theorem NameChar.toNat_lt {c : Char} (h : NameChar c) : c.toNat < 128 := by
  have hbelow (high : UInt32) (hhigh : high.toNat < 128) (hc : c.val ≤ high) : c.toNat < 128 :=
    Nat.lt_of_le_of_lt (UInt32.le_iff_toNat_le.1 hc) hhigh
  rcases h with rfl | h
  · decide
  · rcases Bool.or_eq_true_iff.1 h with h | h
    · rcases Bool.or_eq_true_iff.1 h with h | h
      · exact hbelow 'Z'.val (by decide) (of_decide_eq_true h).2
      · exact hbelow 'z'.val (by decide) (of_decide_eq_true (Bool.and_eq_true_iff.1 h).2)
    · exact hbelow '9'.val (by decide) (of_decide_eq_true (Bool.and_eq_true_iff.1 h).2)

/-- File systems take the characters of slugs in names. -/
theorem NameChar.allowed {c : Char} (h : NameChar c) : (!isReserved c && !Text.isControl c) = true := by
  have hall : ∀ n < 128, NameChar (Char.ofNat n) →
      (!isReserved (Char.ofNat n) && !Text.isControl (Char.ofNat n)) = true := by decide
  have hc := hall c.toNat h.toNat_lt
  rw [Char.ofNat_toNat] at hc
  exact hc h

/-- Slugs are safe components. -/
theorem isSafeComponent_of_nameChar {n : String} (hne : n ≠ "") (h : ∀ c ∈ n.toList, NameChar c) :
    isSafeComponent n = true := by
  have hno {c : Char} (hu : c ≠ '_') (ha : c.isAlphanum = false) : c ∉ n.toList := fun hc =>
    (h c hc).ne hu ha rfl
  have hdot : '.' ∉ n.toList := hno (by decide) (by decide)
  have hspace : n.toList.getLast? ≠ some ' ' := fun hc => hno (by decide) (by decide) (List.mem_of_getLast? hc)
  have hperiod : n.toList.getLast? ≠ some '.' := fun hc => hdot (List.mem_of_getLast? hc)
  have hone : n.toList ≠ ['.'] := fun hc => hdot (by simp [hc])
  have htwo : n.toList ≠ ['.', '.'] := fun hc => hdot (by simp [hc])
  have hall : (n.toList.all fun c => !isReserved c && !Text.isControl c) = true :=
    List.all_eq_true.2 fun c hc => (h c hc).allowed
  simp [isSafeComponent, hne, hone, htwo, hperiod, hspace, -List.all_eq_true, hall]

/-! ## Every text -/

/-- What the slug of a text is. -/
structure Normalizes (s : String) : Prop where
  /-- It is the runs of letters and digits, in lower case, with single underscores between them. -/
  toList_eq : (slug s).toList = joinWords ((runs s.toList).map fun run => run.map Char.toLower)
  isSlugWord : ∀ run ∈ runs s.toList, IsSlugWord (run.map Char.toLower)
  form : HasSlugForm (slug s)
  /-- It changes nothing in texts of its form, and in no others. -/
  fixed_iff : slug s = s ↔ HasSlugForm s
  idempotent : slug (slug s) = slug s
  joined : ∀ t, slug (s ++ "_" ++ t) = Text.joinWith "_" ([slug s, slug t].filter fun part => part != "")
  safe : slug s ≠ "" → isSafeComponent (slug s) = true

theorem normalizes_slug (s : String) : Normalizes s := by
  have hwords := words_eq_runs s.toList
  refine ⟨?_, ?_, hasSlugForm_slug s, slug_eq_self_iff, slug_slug s, slug_joined s, ?_⟩
  · rw [toList_slug, hwords]
  · intro run hrun
    have hmem : run.map Char.toLower ∈ words s.toList := hwords ▸ List.mem_map.2 ⟨run, hrun, rfl⟩
    exact isSlugWord_of_mem_words hmem
  · exact fun hne => isSafeComponent_of_nameChar hne fun _ => nameChar_of_mem_slug

example : slug "  Chapter 1 -- Alice's ROUTE!  " = "chapter_1_alice_s_route" := by decide

end StoryPress.Naming
