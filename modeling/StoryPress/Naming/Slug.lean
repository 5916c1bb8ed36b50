/-!
# Slugs

A slug names a label, a directory or an image tag: lower-case ASCII letters and digits in words joined by
single underscores. The words are the runs of ASCII letters and digits of the authored text.
-/

namespace StoryPress.Naming

/-- The rest of a slug after its first character; `gap` says that a separator is owed before the next. -/
def slugRest : Bool → List Char → List Char
  | _, [] => []
  | gap, c :: cs =>
    if c.isAlphanum then
      if gap then '_' :: c.toLower :: slugRest false cs else c.toLower :: slugRest false cs
    else slugRest true cs

def slugChars (cs : List Char) : List Char := slugRest false (cs.dropWhile fun c => !c.isAlphanum)

/-- The slug of an authored text; empty if nothing in it can be kept. -/
def slug (s : String) : String := String.ofList (slugChars s.toList)

/-- The maximal runs of ASCII letters and digits, in lower case; `word` is the run being read. -/
def wordsFrom (word : List Char) : List Char → List (List Char)
  | [] => if word.isEmpty then [] else [word]
  | c :: cs =>
    if c.isAlphanum then wordsFrom (word ++ [c.toLower]) cs
    else if word.isEmpty then wordsFrom [] cs
    else word :: wordsFrom [] cs

def words (cs : List Char) : List (List Char) := wordsFrom [] cs

/-- Words put together with single underscores. -/
def joinWords : List (List Char) → List Char
  | [] => []
  | [w] => w
  | w :: ws => w ++ '_' :: joinWords ws

theorem wordsFrom_ne_nil {word : List Char} (hw : word ≠ []) (cs : List Char) :
    wordsFrom word cs ≠ [] := by
  induction cs generalizing word with
  | nil => simp [wordsFrom, hw]
  | cons c cs ih =>
    simp only [wordsFrom, List.isEmpty_iff, hw, if_false]
    split
    · exact ih (by simp)
    · simp

theorem joinWords_cons {w : List Char} {ws : List (List Char)} (h : ws ≠ []) :
    joinWords (w :: ws) = w ++ '_' :: joinWords ws := by
  cases ws with
  | nil => exact absurd rfl h
  | cons v vs => rfl

theorem append_slugRest (cs : List Char) (word : List Char) (hw : word ≠ []) :
    word ++ slugRest false cs = joinWords (wordsFrom word cs) ∧
      word ++ slugRest true cs = joinWords (word :: wordsFrom [] cs) := by
  induction cs generalizing word with
  | nil => simp [slugRest, wordsFrom, joinWords, hw]
  | cons c cs ih =>
    by_cases hc : c.isAlphanum = true
    · have h1 := (ih (word ++ [c.toLower]) (by simp)).1
      have h2 := (ih [c.toLower] (by simp)).1
      simp only [List.append_assoc, List.singleton_append] at h1 h2
      have h3 : wordsFrom [c.toLower] cs ≠ [] := wordsFrom_ne_nil (by simp) cs
      simp [slugRest, wordsFrom, hc, h1, joinWords_cons h3, ← h2]
    · have h := ih word hw
      simp [slugRest, wordsFrom, hc, hw, h.2]

/-- A slug is its words joined by underscores. -/
theorem slugChars_eq_joinWords (cs : List Char) : slugChars cs = joinWords (words cs) := by
  induction cs with
  | nil => rfl
  | cons c cs ih =>
    by_cases hc : c.isAlphanum = true
    · have h := (append_slugRest cs [c.toLower] (by simp)).1
      simpa [slugChars, words, wordsFrom, slugRest, hc] using h
    · simpa [slugChars, words, wordsFrom, hc] using ih

end StoryPress.Naming
