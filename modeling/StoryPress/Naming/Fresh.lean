/-!
# Fresh names

A name that is taken gets the first free suffix `_2`, `_3`, …. Among one more candidates than there are
taken names one is free, so the search is bounded.

* `fresh_eq_self`: a base that is not taken is kept as it is.
-/

namespace StoryPress.Naming

/-- The name itself, then the name with the suffixes `_2`, `_3`, …. -/
def candidate (base : String) : Nat → String
  | 0 => base
  | n + 1 => base ++ "_" ++ toString (n + 2)

/-- The first candidate for `base` that is not in `taken`. -/
def fresh (taken : List String) (base : String) : String :=
  match (List.range (taken.length + 1)).find? fun n => !taken.contains (candidate base n) with
  | some n => candidate base n
  | none => base

theorem fresh_eq_self {taken : List String} {base : String} (h : base ∉ taken) :
    fresh taken base = base := by
  have h0 : candidate base 0 = base := rfl
  simp [fresh, List.range_succ_eq_map, h0, h]

end StoryPress.Naming
