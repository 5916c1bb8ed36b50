import StoryPress.Asset.Portrait
import StoryPress.Proofs.Labels
import StoryPress.Proofs.Segments

/-!
# Slugs and the keys in them

* `Naming.words_append`, `Naming.slug_append`: the slug of two texts with a separator between them is made of theirs;
* `Naming.words_joinWords`, `Naming.slug_eq_iff`: a slug tells the words that it is made of, so two texts have one slug
  if and only if they have the same words;
* `Naming.slug_candidate`: a numbered slug is a slug;
* `Naming.slug_colons`: a colon separates words as an underscore does;
* `PortraitKey.ofSlug_append`, `PortraitKey.no_underscore_of_ofSlug`: the key that is read from a slug.
-/

namespace StoryPress

namespace Naming

theorem wordsFrom_append {separator : Char} (h : separator.isAlphanum = false) (word before after : List Char) :
    wordsFrom word (before ++ separator :: after) = wordsFrom word before ++ words after := by
  induction before generalizing word with
  | nil =>
    simp only [List.nil_append, wordsFrom, h, Bool.false_eq_true, if_false, words]
    split <;> rfl
  | cons c before ih =>
    simp only [List.cons_append, wordsFrom]
    split
    · exact ih _
    · split
      · exact ih _
      · rw [ih, List.cons_append]

theorem words_append {separator : Char} (h : separator.isAlphanum = false) (before after : List Char) :
    words (before ++ separator :: after) = words before ++ words after := wordsFrom_append h [] before after

theorem joinWords_append {us vs : List (List Char)} (hus : us ≠ []) (hvs : vs ≠ []) :
    joinWords (us ++ vs) = joinWords us ++ '_' :: joinWords vs := by
  induction us with
  | nil => exact absurd rfl hus
  | cons w us ih =>
    rw [List.cons_append, joinWords_cons (by simp [hvs])]
    by_cases hne : us = []
    · rw [hne, List.nil_append]
      rfl
    · rw [ih hne, joinWords_cons hne, List.append_assoc, List.cons_append]

/-! ### Words are read back -/

/-- The words of texts: small letters and digits, at least one. -/
structure IsSlugWord (w : List Char) : Prop where
  ne_nil : w ≠ []
  chars : ∀ c ∈ w, WordChar c

theorem wordsFrom_word {w : List Char} (h : ∀ c ∈ w, WordChar c) (word : List Char) :
    wordsFrom word w = if (word ++ w).isEmpty then [] else [word ++ w] := by
  induction w generalizing word with
  | nil => rw [wordsFrom, List.append_nil]
  | cons c w ih =>
    have hc := h c List.mem_cons_self
    rw [wordsFrom, if_pos hc.isAlphanum, hc.toLower_eq, ih fun d hd => h d (List.mem_cons_of_mem _ hd),
      List.append_assoc, List.singleton_append]

theorem words_word {w : List Char} (h : IsSlugWord w) : words w = [w] := by
  rw [words, wordsFrom_word h.chars, List.nil_append, if_neg (mt List.isEmpty_iff.1 h.ne_nil)]

/-- Words that are joined are read back. -/
theorem words_joinWords {ws : List (List Char)} (h : ∀ w ∈ ws, IsSlugWord w) : words (joinWords ws) = ws := by
  induction ws with
  | nil => rfl
  | cons w ws ih =>
    have hw := words_word (h w List.mem_cons_self)
    by_cases hne : ws = []
    · rw [hne]
      exact hw
    · rw [joinWords_cons hne, words_append (by decide), hw, ih fun v hv => h v (List.mem_cons_of_mem _ hv),
        List.singleton_append]

theorem isSlugWord_of_mem_words {cs w : List Char} (h : w ∈ words cs) : IsSlugWord w := by
  -- by induction on the text, for any characters of the word that is being read
  have hfrom (cs : List Char) : ∀ word : List Char, (∀ c ∈ word, WordChar c) → w ∈ wordsFrom word cs →
      IsSlugWord w := by
    have hread {word : List Char} (hword : ∀ c ∈ word, WordChar c) (hne : ¬word.isEmpty = true) :
        IsSlugWord word := ⟨mt List.isEmpty_iff.2 hne, hword⟩
    induction cs with
    | nil =>
      intro word hword hw
      rw [wordsFrom] at hw
      split at hw
      · cases hw
      · next hne =>
        obtain rfl := List.mem_singleton.1 hw
        exact hread hword hne
    | cons c cs ih =>
      intro word hword hw
      rw [wordsFrom] at hw
      split at hw
      · next hc =>
        refine ih _ ?_ hw
        intro d hd
        rcases List.mem_append.1 hd with hd | hd
        · exact hword d hd
        · obtain rfl := List.mem_singleton.1 hd
          exact wordChar_toLower hc
      · split at hw
        · exact ih [] (by simp) hw
        · next hne =>
          rcases List.mem_cons.1 hw with rfl | hw
          · exact hread hword hne
          · exact ih [] (by simp) hw
  exact hfrom cs [] (by simp) h

theorem toList_slug (s : String) : (slug s).toList = joinWords (words s.toList) := by
  rw [slug, String.toList_ofList, slugChars_eq_joinWords]

/-- A slug has the words of its text. -/
theorem words_slug (s : String) : words (slug s).toList = words s.toList := by
  rw [toList_slug, words_joinWords fun _ => isSlugWord_of_mem_words]

theorem slug_eq_iff {s t : String} : slug s = slug t ↔ words s.toList = words t.toList := by
  constructor
  · intro h
    rw [← words_slug s, h, words_slug]
  · intro h
    rw [← String.toList_inj, toList_slug, toList_slug, h]

@[simp] theorem slug_slug (s : String) : slug (slug s) = slug s := slug_eq_iff.2 (words_slug s)

theorem slug_of_word {s : String} (h : IsSlugWord s.toList) : slug s = s := by
  rw [← String.toList_inj, toList_slug, words_word h]
  rfl

theorem words_ne_nil {s : String} (h : slug s ≠ "") : words s.toList ≠ [] := by
  intro hnil
  rw [slug, slugChars_eq_joinWords, hnil] at h
  exact h rfl

/-- The slug of two texts with a separator between them is made of their slugs. -/
theorem slug_append {s before after : String} {separator : Char} (hsep : separator.isAlphanum = false)
    (hs : s.toList = before.toList ++ separator :: after.toList) (hbefore : slug before ≠ "")
    (hafter : slug after ≠ "") : slug s = slug before ++ "_" ++ slug after := by
  have hchars : slugChars s.toList = slugChars before.toList ++ '_' :: slugChars after.toList := by
    simp only [slugChars_eq_joinWords]
    rw [hs, words_append hsep, joinWords_append (words_ne_nil hbefore) (words_ne_nil hafter)]
  apply String.toList_inj.1
  simp [slug, hchars]

/-- The number in a candidate, as a word. -/
def numberWords : Nat → List (List Char)
  | 0 => []
  | n + 1 => [Nat.toDigits 10 (n + 2)]

theorem isSlugWord_digits (n : Nat) : IsSlugWord (Nat.toDigits 10 n) :=
  ⟨Nat.toDigits_ne_nil, fun _ hc => .inr (Nat.isDigit_of_mem_toDigits (by omega) (by omega) hc)⟩

/-- A numbered name has the words of the name, and the number. -/
theorem words_candidate (base : String) (n : Nat) :
    words (candidate base n).toList = words base.toList ++ numberWords n := by
  cases n with
  | zero => exact (List.append_nil _).symm
  | succ n => rw [candidate_succ, words_append (by decide), words_word (isSlugWord_digits _), numberWords]

theorem slug_candidate {base : String} (h : slug base = base) (hne : base ≠ "") (n : Nat) :
    slug (candidate base n) = candidate base n := by
  cases n with
  | zero => exact h
  | succ n =>
    have hwords : words base.toList ≠ [] := words_ne_nil (by rwa [h])
    rw [← String.toList_inj, toList_slug, words_candidate, numberWords,
      joinWords_append hwords (List.cons_ne_nil _ _), ← toList_slug, h, candidate_succ]
    rfl

/-- Colons and underscores alike separate words. -/
theorem slug_colons (s : String) : slug (Text.mapChars (fun c => if c = ':' then '_' else c) s) = slug s := by
  have hwords (cs : List Char) : ∀ word,
      wordsFrom word (cs.map fun c => if c = ':' then '_' else c) = wordsFrom word cs := by
    induction cs with
    | nil => exact fun _ => rfl
    | cons c cs ih =>
      intro word
      by_cases hc : c = ':'
      · subst hc
        simp only [List.map_cons, if_true, wordsFrom, ih]
        rfl
      · simp only [List.map_cons, if_neg hc, wordsFrom, ih]
  rw [slug, slug, slugChars_eq_joinWords, slugChars_eq_joinWords, Text.mapChars, String.toList_ofList, words, hwords,
    ← words]

end Naming

namespace PortraitKey

theorem ofSlug_append {character : String} (h : '_' ∉ character.toList) (expression : String) :
    ofSlug (character ++ "_" ++ expression) = ⟨character, expression⟩ := by
  have hsplit : Text.splitFirst? '_' (character ++ "_" ++ expression) = some (character, expression) :=
    Text.splitFirst?_eq_some_iff.2 ⟨by simp, h⟩
  rw [ofSlug, hsplit]

/-- No character that is read from a slug has an underscore. -/
theorem no_underscore_of_ofSlug (slug : String) : '_' ∉ (ofSlug slug).character.toList := by
  unfold ofSlug Text.splitFirst?
  cases hcut : Text.cutFirst? '_' slug.toList with
  | none => exact Text.cutFirst?_eq_none_iff.1 hcut
  | some p => simpa using (Text.cutFirst?_eq_some hcut).2

end PortraitKey

end StoryPress
