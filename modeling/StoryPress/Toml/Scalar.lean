import StoryPress.Hash.Hex
import StoryPress.Json.Tree
import StoryPress.Text.Pieces

/-!
# TOML words

Truth values, numbers, dates and times are words that stand alone: the whole word has one of these forms, or
it is refused.
-/

namespace StoryPress.Toml

/-- Digits with single underscores between them, without the underscores. -/
def separated (isDigit : Char → Bool) (cs : List Char) : Option (List Char) :=
  let groups := Text.cutAll '_' cs
  if groups.all fun g => !g.isEmpty && g.all isDigit then some groups.flatten else none

/-- The number that digits write. -/
def natOf (base : Nat) (digits : List Char) : Nat :=
  digits.foldl (fun n c => base * n + (Hash.hexValue? c).getD 0) 0

def decimalDigits (cs : List Char) : Option (List Char) := separated Char.isDigit cs

/-- The whole part of a number: a zero stands only alone at the front. -/
def wholeDigits (cs : List Char) : Option (List Char) :=
  match decimalDigits cs with
  | some ('0' :: _ :: _) => none
  | ds => ds

/-- The sign in front of a number. -/
def signed : List Char → Bool × List Char
  | '-' :: cs => (true, cs)
  | '+' :: cs => (false, cs)
  | cs => (false, cs)

/-- An integer of at most 128 bits; a larger one cannot be read. -/
def integerTree (n : Int) : Json.Tree :=
  let low : Int := -(1 <<< 127 : Nat)
  let high : Int := (1 <<< 128 : Nat)
  if low ≤ n && n < high then .number (some (.integer n)) else .fault (.always .malformed)

def integer? (word : List Char) : Option Json.Tree :=
  match word with
  | '0' :: 'x' :: cs =>
    (separated (fun c => (Hash.hexValue? c).isSome) cs).map fun ds => integerTree (natOf 16 ds)
  | '0' :: 'o' :: cs =>
    (separated (fun c => '0' ≤ c && c ≤ '7') cs).map fun ds => integerTree (natOf 8 ds)
  | '0' :: 'b' :: cs => (separated (fun c => c = '0' || c = '1') cs).map fun ds => integerTree (natOf 2 ds)
  | _ =>
    let (negative, cs) := signed word
    (wholeDigits cs).map fun ds => integerTree (if negative then -(natOf 10 ds) else natOf 10 ds)

/-- The double that a decimal number stands for; one that is out of range cannot be read. -/
def doubleTree (negative : Bool) (digits : List Char) (exponent : Int) : Json.Tree :=
  let n := natOf 10 digits
  let bits (x : Float) : Json.Tree := .number (some (.double (if negative then -x else x).toBits))
  if n = 0 || exponent + digits.length < -400 then bits 0.0
  else if 400 < exponent + digits.length then .fault (.always .malformed)
  else
    let x := Float.ofScientific n (exponent < 0) exponent.natAbs
    if x.isInf then .fault (.always .malformed) else bits x

/-- The exponent of a number, without its letter. -/
def exponent? (cs : List Char) : Option Int :=
  let (negative, cs) := signed cs
  (decimalDigits cs).map fun ds => if negative then -(natOf 10 ds) else natOf 10 ds

def float? (word : List Char) : Option Json.Tree :=
  let (negative, cs) := signed word
  let special (bits : UInt64) : Option Json.Tree := some (.number (some (.double bits)))
  if cs = ['i', 'n', 'f'] then special (if negative then 0xFFF0000000000000 else 0x7FF0000000000000)
  else if cs = ['n', 'a', 'n'] then special (if negative then 0xFFF8000000000000 else 0x7FF8000000000000)
  else
    let cut := (Text.cutFirst? 'e' cs).orElse fun _ => Text.cutFirst? 'E' cs
    let (digits, power) := cut.getD (cs, [])
    let exponent := if cut.isSome then exponent? power else some 0
    match Text.cutFirst? '.' digits with
    | some (whole, fraction) =>
      match wholeDigits whole, decimalDigits fraction, exponent with
      | some w, some f, some e => some (doubleTree negative (w ++ f) (e - f.length))
      | _, _, _ => none
    | none =>
      match cut, wholeDigits digits, exponent with
      | some _, some w, some e => some (doubleTree negative w e)
      | _, _, _ => none

/-- A number of two digits in front of a text, if it is in a range. -/
def twoDigits (low high : Nat) : List Char → Option (Nat × List Char)
  | a :: b :: rest =>
    let n := natOf 10 [a, b]
    if a.isDigit && b.isDigit && low ≤ n && n ≤ high then some (n, rest) else none
  | _ => none

def isLeapYear (year : Nat) : Bool := year % 4 = 0 && (year % 100 ≠ 0 || year % 400 = 0)

def daysOf (year month : Nat) : Nat :=
  if month = 2 then (if isLeapYear year then 29 else 28)
  else if [4, 6, 9, 11].contains month then 30
  else 31

/-- Passes over a character. -/
def pass (c : Char) : List Char → Option (List Char)
  | d :: rest => if d = c then some rest else none
  | [] => none

/-- Passes over a date. -/
def date? : List Char → Option (List Char)
  | a :: b :: c :: d :: '-' :: rest => do
    if !([a, b, c, d].all Char.isDigit) then none
    else
      let (month, rest) ← twoDigits 1 12 rest
      let rest ← pass '-' rest
      let (_, rest) ← twoDigits 1 (daysOf (natOf 10 [a, b, c, d]) month) rest
      return rest
  | _ => none

/-- Passes over the fraction of a second. -/
def fraction? : List Char → Option (List Char)
  | '.' :: cs =>
    let rest := cs.dropWhile Char.isDigit
    if rest.length = cs.length then none else some rest
  | cs => some cs

/-- Passes over a time of day; its seconds may be left out. -/
def time? (cs : List Char) : Option (List Char) := do
  let (_, rest) ← twoDigits 0 23 cs
  let rest ← pass ':' rest
  let (_, rest) ← twoDigits 0 59 rest
  match rest with
  | ':' :: rest =>
    let (_, rest) ← twoDigits 0 60 rest
    fraction? rest
  | _ => return rest

/-- Whether a text is the distance from universal time, or empty. -/
def isOffset : List Char → Bool
  | [] | ['Z'] | ['z'] => true
  | c :: rest =>
    (c = '+' || c = '-') &&
      ((twoDigits 0 23 rest).bind fun (_, rest) => (pass ':' rest).bind (twoDigits 0 59)).any
        fun p => p.2.isEmpty

/-- Whether a word is a date, a time, or both. -/
def isMoment (word : List Char) : Bool :=
  match date? word with
  | some [] => true
  | some (c :: rest) => ['T', 't', ' '].contains c && (time? rest).any isOffset
  | none => time? word == some []

/-- A date or time is read as a record of its own. -/
def momentTree (word : List Char) : Json.Tree :=
  .object [(some "moment", .string (some (String.ofList word)))] .closed

/-- What a word stands for. -/
def wordTree? (word : List Char) : Option Json.Tree :=
  if word = ['t', 'r', 'u', 'e'] then some (.bool true)
  else if word = ['f', 'a', 'l', 's', 'e'] then some (.bool false)
  else if isMoment word then some (momentTree word)
  else (integer? word).orElse fun _ => float? word

end StoryPress.Toml
