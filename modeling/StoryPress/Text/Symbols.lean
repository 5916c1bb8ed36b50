/-!
# Bytes read as characters

A file need not hold valid UTF-8. It is read as a list of symbols: a character, or `none` for a byte that
belongs to no character.
-/

namespace StoryPress.Text

abbrev Symbol := Option Char

/-- The character that starts at byte `i`, and the number of its bytes. -/
def charAt? (bytes : ByteArray) (i : Nat) : Option (Char × Nat) :=
  [1, 2, 3, 4].findSome? fun n =>
    if i + n ≤ bytes.size then
      match (String.fromUTF8? (bytes.extract i (i + n))).map String.toList with
      | some [c] => some (c, n)
      | _ => none
    else none

/-- The next `n` symbols from byte `i` on. -/
def symbolsFrom (bytes : ByteArray) : Nat → Nat → List Symbol
  | 0, _ => []
  | n + 1, i =>
    if i < bytes.size then
      match charAt? bytes i with
      | some (c, len) => some c :: symbolsFrom bytes n (i + len)
      | none => none :: symbolsFrom bytes n (i + 1)
    else []

def symbolsOfText (text : String) : List Symbol := text.toList.map some

/-- The symbols of a file. -/
def symbols (bytes : ByteArray) : List Symbol :=
  match String.fromUTF8? bytes with
  | some text => symbolsOfText text
  | none => symbolsFrom bytes bytes.size 0

/-- The number of bytes of a symbol. -/
def symbolSize : Symbol → Nat
  | some c => c.utf8Size
  | none => 1

end StoryPress.Text
