/-!
# White space, control characters and trimming

White space is the Unicode property `White_Space`; control characters are the general category `Cc`.
-/

namespace StoryPress.Text

def isBlank (c : Char) : Bool :=
  let n := c.toNat
  (9 ≤ n && n ≤ 13) || n == 0x20 || n == 0x85 || n == 0xA0 || n == 0x1680 ||
    (0x2000 ≤ n && n ≤ 0x200A) || n == 0x2028 || n == 0x2029 || n == 0x202F || n == 0x205F ||
    n == 0x3000

def isControl (c : Char) : Bool :=
  let n := c.toNat
  n < 0x20 || (0x7F ≤ n && n ≤ 0x9F)

/-- Drops the characters of a class from both ends. -/
def trimBoth (drop : Char → Bool) (cs : List Char) : List Char :=
  ((cs.dropWhile drop).reverse.dropWhile drop).reverse

/-- The text without white space at its ends. -/
def trim (s : String) : String := String.ofList (trimBoth isBlank s.toList)

/-- Text in which nothing is left once it is trimmed. -/
def isBlankText (s : String) : Bool := s.toList.all isBlank

/-- Keeps a text only if something is left of it, and then trimmed. -/
def nonBlank? (s : String) : Option String :=
  let t := trim s
  if t.isEmpty then none else some t

theorem isBlank_of_isWhitespace {c : Char} (h : c.isWhitespace = true) : isBlank c = true := by
  simp only [Char.isWhitespace, Bool.or_eq_true, decide_eq_true_eq] at h
  rcases h with ((rfl | rfl) | rfl) | rfl <;> rfl

end StoryPress.Text
