import StoryPress.Hash.Hex
import StoryPress.Text.Pieces

/-!
# TOML strings

A string is basic, with escapes, or literal; three quotes around it let it go over several lines. Each reader
starts after the opening quotes and gives the text and what follows the closing ones.
-/

namespace StoryPress.Toml

/-- Characters that stand for themselves: all but the controls, and the tab among those. -/
def isPlain (c : Char) : Bool := c = '\t' || (0x20 ≤ c.toNat && c.toNat ≠ 0x7F)

/-- The characters that single letters after a backslash stand for. -/
def letterEscapes : List (Char × Char) :=
  [('b', '\x08'), ('t', '\t'), ('n', '\n'), ('f', '\x0c'), ('r', '\r'), ('e', '\x1b'), ('"', '"'),
    ('\\', '\\')]

/-- The number of digits that other letters announce. -/
def codeEscapes : List (Char × Nat) := [('x', 2), ('u', 4), ('U', 8)]

/-- The character whose number the next `count` digits write. -/
def codePoint? (count : Nat) (cs : List Char) : Option (Char × List Char) :=
  let digits := cs.take count
  if digits.length = count && digits.all fun c => (Hash.hexValue? c).isSome then
    let n := digits.foldl (fun n c => 16 * n + (Hash.hexValue? c).getD 0) 0
    if n.isValidChar then some (Char.ofNat n, cs.drop count) else none
  else none

/-- Reads an escape after its backslash. -/
def escape? : List Char → Option (Char × List Char)
  | [] => none
  | c :: rest =>
    match letterEscapes.lookup c with
    | some d => some (d, rest)
    | none => (codeEscapes.lookup c).bind fun count => codePoint? count rest

private def textOfReversed (cs : List Char) : String := String.ofList cs.reverse

/-- Reads a basic string on one line; `reversed` is the text so far. -/
def basicFrom : Nat → List Char → List Char → Option (String × List Char)
  | 0, _, _ => none
  | _ + 1, _, [] => none
  | fuel + 1, reversed, c :: rest =>
    if c = '"' then some (textOfReversed reversed, rest)
    else if c = '\\' then
      match escape? rest with
      | some (d, rest) => basicFrom fuel (d :: reversed) rest
      | none => none
    else if isPlain c then basicFrom fuel (c :: reversed) rest
    else none

/-- Reads a literal string on one line. -/
def literalFrom (reversed : List Char) : List Char → Option (String × List Char)
  | [] => none
  | c :: rest =>
    if c = '\'' then some (textOfReversed reversed, rest)
    else if isPlain c then literalFrom (c :: reversed) rest
    else none

/-- The lines of a long string begin after a line end that follows the opening quotes. -/
def dropFirstLineEnd : List Char → List Char
  | '\n' :: rest => rest
  | '\r' :: '\n' :: rest => rest
  | cs => cs

/-- At three quotes a long string ends; up to two more belong to its text. -/
def closing? (quote : Char) (cs : List Char) : Option (List Char × List Char) :=
  let count := (cs.takeWhile (· = quote)).length
  if count < 3 then none
  else
    let inside := min (count - 3) 2
    some (List.replicate inside quote, cs.drop (inside + 3))

def isBlank (c : Char) : Bool := c = ' ' || c = '\t'

/-- What follows a backslash at the end of a line: blanks and line ends up to the next text. Nothing if there
is text after the backslash on its line. -/
def continued? (cs : List Char) : Option (List Char) :=
  match cs.dropWhile isBlank with
  | '\n' :: rest => some (rest.dropWhile fun c => isBlank c || c = '\n' || c = '\r')
  | '\r' :: '\n' :: rest => some (rest.dropWhile fun c => isBlank c || c = '\n' || c = '\r')
  | _ => none

/-- Reads a long string; `escapes` says whether backslashes have a meaning. -/
def longFrom (quote : Char) (escapes : Bool) :
    Nat → List Char → List Char → Option (String × List Char)
  | 0, _, _ => none
  | fuel + 1, reversed, cs =>
    match closing? quote cs with
    | some (inside, rest) => some (textOfReversed (inside ++ reversed), rest)
    | none =>
      match cs with
      | [] => none
      | '\r' :: '\n' :: rest => longFrom quote escapes fuel ('\n' :: '\r' :: reversed) rest
      | c :: rest =>
        if escapes && c = '\\' then
          match continued? rest with
          | some rest => longFrom quote escapes fuel reversed rest
          | none =>
            match escape? rest with
            | some (d, rest) => longFrom quote escapes fuel (d :: reversed) rest
            | none => none
        else if isPlain c || c = '\n' then longFrom quote escapes fuel (c :: reversed) rest
        else none

/-- Reads a string in any form. -/
def string? (cs : List Char) : Option (String × List Char) :=
  match cs with
  | '"' :: '"' :: '"' :: rest => longFrom '"' true (cs.length + 1) [] (dropFirstLineEnd rest)
  | '\'' :: '\'' :: '\'' :: rest => longFrom '\'' false (cs.length + 1) [] (dropFirstLineEnd rest)
  | '"' :: rest => basicFrom (cs.length + 1) [] rest
  | '\'' :: rest => literalFrom [] rest
  | _ => none

end StoryPress.Toml
