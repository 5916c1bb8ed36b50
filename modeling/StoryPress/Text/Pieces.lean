/-!
# Cutting text at a character

* `splitFirst?`, `splitLast?`: the two sides of the first or last occurrence;
* `pieces`: all the parts between occurrences, so a text without one is its only piece.
-/

namespace StoryPress.Text

/-- The text before and after the first `sep`. -/
def cutFirst? (sep : Char) : List Char → Option (List Char × List Char)
  | [] => none
  | c :: rest =>
    if c = sep then some ([], rest)
    else (cutFirst? sep rest).map fun (before, after) => (c :: before, after)

/-- The text before and after the last `sep`. -/
def cutLast? (sep : Char) : List Char → Option (List Char × List Char)
  | [] => none
  | c :: rest =>
    match cutLast? sep rest with
    | some (before, after) => some (c :: before, after)
    | none => if c = sep then some ([], rest) else none

/-- The parts between occurrences of `sep`; there is always at least one. -/
def cutAll (sep : Char) : List Char → List (List Char)
  | [] => [[]]
  | c :: rest =>
    if c = sep then [] :: cutAll sep rest
    else
      match cutAll sep rest with
      | [] => [[c]]
      | part :: parts => (c :: part) :: parts

def splitFirst? (sep : Char) (s : String) : Option (String × String) :=
  (cutFirst? sep s.toList).map fun (a, b) => (String.ofList a, String.ofList b)

def splitLast? (sep : Char) (s : String) : Option (String × String) :=
  (cutLast? sep s.toList).map fun (a, b) => (String.ofList a, String.ofList b)

def pieces (sep : Char) (s : String) : List String := (cutAll sep s.toList).map String.ofList

def joinWith (sep : String) (parts : List String) : String := sep.intercalate parts

/-- Replaces single characters. -/
def mapChars (f : Char → Char) (s : String) : String := String.ofList (s.toList.map f)

/-- What follows `start`, if the text begins with it. -/
def afterStart? : List Char → List Char → Option (List Char)
  | [], rest => some rest
  | _ :: _, [] => none
  | c :: start, d :: rest => if c = d then afterStart? start rest else none

def startsWith (start s : String) : Bool := (afterStart? start.toList s.toList).isSome

def endsWith (ending s : String) : Bool :=
  (afterStart? ending.toList.reverse s.toList.reverse).isSome

theorem cutFirst?_eq_some {sep : Char} {cs before after : List Char}
    (h : cutFirst? sep cs = some (before, after)) : cs = before ++ sep :: after ∧ sep ∉ before := by
  induction cs generalizing before with
  | nil => simp [cutFirst?] at h
  | cons c rest ih =>
    by_cases hc : c = sep
    · simp [cutFirst?, hc] at h
      obtain ⟨rfl, rfl⟩ := h
      simp [hc]
    · simp only [cutFirst?, hc, if_false, Option.map_eq_some_iff] at h
      obtain ⟨⟨b, a⟩, hba, heq⟩ := h
      obtain ⟨rfl, rfl⟩ := Prod.mk.inj heq
      obtain ⟨rfl, hb⟩ := ih hba
      exact ⟨rfl, by simp [hb, Ne.symm hc]⟩

theorem cutFirst?_eq_none_iff {sep : Char} {cs : List Char} :
    cutFirst? sep cs = none ↔ sep ∉ cs := by
  induction cs with
  | nil => simp [cutFirst?]
  | cons c rest ih =>
    by_cases hc : c = sep
    · simp [cutFirst?, hc]
    · simp [cutFirst?, hc, ih, Ne.symm hc]

theorem cutLast?_eq_some {sep : Char} {cs before after : List Char}
    (h : cutLast? sep cs = some (before, after)) : cs = before ++ sep :: after ∧ sep ∉ after := by
  induction cs generalizing before after with
  | nil => simp [cutLast?] at h
  | cons c rest ih =>
    cases hr : cutLast? sep rest with
    | some p =>
      obtain ⟨b, a⟩ := p
      simp only [cutLast?, hr, Option.some.injEq, Prod.mk.injEq] at h
      obtain ⟨rfl, rfl⟩ := h
      obtain ⟨rfl, ha⟩ := ih hr
      exact ⟨rfl, ha⟩
    | none =>
      simp only [cutLast?, hr] at h
      split at h
      · next hc =>
        simp only [Option.some.injEq, Prod.mk.injEq] at h
        obtain ⟨rfl, rfl⟩ := h
        refine ⟨by simp [hc], fun hmem => ?_⟩
        clear ih
        induction rest with
        | nil => simp at hmem
        | cons d ds ihd =>
          simp only [cutLast?] at hr
          cases hd : cutLast? sep ds with
          | some q => simp [hd] at hr
          | none =>
            simp only [hd] at hr
            rcases List.mem_cons.1 hmem with rfl | hmem
            · simp at hr
            · exact ihd hd hmem
      · simp at h

end StoryPress.Text
