import StoryPress.Json.Value
import StoryPress.Decimal.Shortest
import StoryPress.Hash.Hex

/-!
# Writing JSON

`Json.compact` writes a value on one line without spaces, `Json.pretty` over several lines with two spaces
for each level.
-/

namespace StoryPress.Json

/-- Quotes and backslashes are escaped, and control characters below the space. -/
def escapeChar (c : Char) : List Char :=
  match c with
  | '"' => ['\\', '"']
  | '\\' => ['\\', '\\']
  | '\n' => ['\\', 'n']
  | '\r' => ['\\', 'r']
  | '\t' => ['\\', 't']
  | '\x08' => ['\\', 'b']
  | '\x0c' => ['\\', 'f']
  | c => if c.toNat < 32 then ['\\', 'u', '0', '0'] ++ Hash.hexByte (UInt8.ofNat c.toNat) else [c]

def quoted (s : String) : String := "\"" ++ String.ofList (s.toList.flatMap escapeChar) ++ "\""

private def zeros (n : Nat) : String := String.ofList (List.replicate n '0')

/-- Positive decimals are positional from `0.00001` up to sixteen digits before the point, with at least
one digit after it; others have one digit in front of the point and a signed exponent. -/
def positiveDecimal (d : Decimal.Scaled) : String :=
  let text := toString d.digits
  let digits := text.toList
  let count := digits.length
  let point : Int := count + d.exponent
  if 0 ≤ d.exponent && point ≤ 16 then text ++ zeros d.exponent.toNat ++ ".0"
  else if 0 < point && point ≤ 16 then
    String.ofList (digits.take point.toNat) ++ "." ++ String.ofList (digits.drop point.toNat)
  else if -5 < point && point ≤ 0 then "0." ++ zeros (-point).toNat ++ text
  else
    let exponent := point - 1
    let mark := if exponent < 0 then "e-" else "e+"
    let head := String.ofList (digits.take 1)
    let tail := if count = 1 then "" else "." ++ String.ofList (digits.drop 1)
    head ++ tail ++ mark ++ toString exponent.natAbs

/-- The text of a double; null where it is no number. -/
def doubleText (bits : UInt64) : String :=
  let sign := if bits >>> 63 = 1 then "-" else ""
  let size := bits &&& 0x7FFFFFFFFFFFFFFF
  if 0x7FF0000000000000 ≤ size then "null"
  else if size = 0 then sign ++ "0.0"
  else sign ++ positiveDecimal (Decimal.shortest size)

def numberText : Number → String
  | .integer n => toString n
  | .double bits => doubleText bits

mutual

def compact : Json → String
  | null => "null"
  | bool b => if b then "true" else "false"
  | number n => numberText n
  | string s => quoted s
  | array items => "[" ++ ",".intercalate (compactItems items) ++ "]"
  | object fields => "\x7b" ++ ",".intercalate (compactFields fields) ++ "\x7d"

def compactItems : List Json → List String
  | [] => []
  | v :: vs => compact v :: compactItems vs

def compactFields : List (String × Json) → List String
  | [] => []
  | (k, v) :: rest => (quoted k ++ ":" ++ compact v) :: compactFields rest

end

/-- The start of a line at a level. -/
def newLine (level : Nat) : String := "\n" ++ String.ofList (List.replicate (2 * level) ' ')

/-- Parts between brackets, each on its own line one level deeper; nothing between them if there are none. -/
def block (opening closing : String) (level : Nat) (parts : List String) : String :=
  if parts.isEmpty then opening ++ closing
  else
    opening ++ newLine (level + 1) ++ ("," ++ newLine (level + 1)).intercalate parts ++ newLine level ++
      closing

mutual

/-- The lines of a value that starts at a level. -/
def prettyAt (level : Nat) : Json → String
  | array items => block "[" "]" level (prettyItems (level + 1) items)
  | object fields => block "\x7b" "\x7d" level (prettyFields (level + 1) fields)
  | null => "null"
  | bool b => if b then "true" else "false"
  | number n => numberText n
  | string s => quoted s

def prettyItems (level : Nat) : List Json → List String
  | [] => []
  | v :: vs => prettyAt level v :: prettyItems level vs

def prettyFields (level : Nat) : List (String × Json) → List String
  | [] => []
  | (k, v) :: rest => (quoted k ++ ": " ++ prettyAt level v) :: prettyFields level rest

end

/-- The form of every JSON file that is written: indented, with a newline at its end. -/
def pretty (v : Json) : String := prettyAt 0 v ++ "\n"

end StoryPress.Json
