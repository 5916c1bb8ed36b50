import StoryPress.Json.Tree
import StoryPress.Text.Symbols
import StoryPress.Hash.Hex

/-!
# Reading JSON text

`Tree.ofSymbols` reads one value from the front of a text; `parse` reads a whole document with a decoder.
-/

namespace StoryPress.Json

open Text (Symbol symbolSize)

namespace Reader

def isSpace (s : Symbol) : Bool := s = some ' ' || s = some '\n' || s = some '\t' || s = some '\r'

def skipSpace (cs : List Symbol) : List Symbol := cs.dropWhile isSpace

def digit? : Symbol → Option Nat
  | some c => if c.isDigit then some (c.toNat - '0'.toNat) else none
  | none => none

/-- The digits at the front of a text. -/
def digits : List Symbol → List Nat × List Symbol
  | [] => ([], [])
  | c :: rest =>
    match digit? c with
    | some d =>
      let (ds, after) := digits rest
      (d :: ds, after)
    | none => ([], c :: rest)

/-- Appends digits to a number while it fits into 64 bits; counts those that are left out. -/
def gather (n : Nat) : List Nat → Nat × Nat
  | [] => (n, 0)
  | d :: ds => if 10 * n + d < 1 <<< 64 then gather (10 * n + d) ds else (n, ds.length + 1)

/-- `x * 10 ^ exponent` for one multiplication or division by a power of ten in the range of doubles; three
divisions by the largest leave nothing of any 64-bit number. -/
def scale : Nat → Float → Int → Option Float
  | fuel, x, exponent =>
    if exponent.natAbs ≤ 308 then
      if 0 ≤ exponent then
        let y := x * Float.ofScientific 1 false exponent.toNat
        if y.isInf then none else some y
      else some (x / Float.ofScientific 1 false exponent.natAbs)
    else if x == 0.0 then some x
    else if 0 < exponent then none
    else
      match fuel with
      | 0 => some 0.0
      | fuel + 1 => scale fuel (x / Float.ofScientific 1 false 308) (exponent + 308)

/-- The parts of a number as it is written. -/
structure Written where
  negative : Bool
  whole : List Nat
  fraction : Option (List Nat)
  exponent : Option (Bool × List Nat)

/-- The double with a significand and an exponent; nothing if it is out of range. -/
def double (negative : Bool) (significand : Nat) (exponent : Int) : Option Number :=
  (scale 4 (UInt64.ofNat significand).toFloat exponent).map fun x =>
    .double (if negative then (-x).toBits else x.toBits)

/-- The value of a written number. Without a fraction and an exponent it is an integer if it fits into 64
bits; minus zero is a double. -/
def Written.value (w : Written) : Option Number :=
  let (whole, dropped) := gather 0 w.whole
  match w.fraction, w.exponent with
  | none, none =>
    if dropped ≠ 0 then double w.negative whole dropped
    else if !w.negative then some (.integer whole)
    else if whole = 0 || 1 <<< 63 < whole then double true whole 0
    else some (.integer (-whole))
  | fraction, exponent =>
    let fraction := fraction.getD []
    let (significand, left) := gather whole fraction
    let shift : Int := dropped - (fraction.length - left : Nat)
    match exponent with
    | none => double w.negative significand shift
    | some (down, ds) =>
      let size : Nat := ds.foldl (fun (n d : Nat) => 10 * n + d) 0
      if size < 1 <<< 31 then
        double w.negative significand (if down then shift - size else shift + size)
      else if significand ≠ 0 && !down then none
      else some (.double (if w.negative then 0x8000000000000000 else 0))

/-- A number that stops before a digit it needs. -/
def missingDigit (rest : List Symbol) : Fault :=
  if rest.isEmpty then ⟨.truncated, .malformed⟩ else .always .malformed

def exponentPart (rest : List Symbol) : Except Fault (Option (Bool × List Nat) × List Symbol) :=
  match rest with
  | some c :: after =>
    if c = 'e' || c = 'E' then
      let (down, after) :=
        match after with
        | some '+' :: more => (false, more)
        | some '-' :: more => (true, more)
        | _ => (false, after)
      match digits after with
      | ([], after) => .error (missingDigit after)
      | (ds, after) => .ok (some (down, ds), after)
    else .ok (none, rest)
  | _ => .ok (none, rest)

def fractionPart (rest : List Symbol) : Except Fault (Option (List Nat) × List Symbol) :=
  match rest with
  | some '.' :: after =>
    match digits after with
    | ([], after) => .error (missingDigit after)
    | (ds, after) => .ok (some ds, after)
  | _ => .ok (none, rest)

/-- Reads a number; a sign has been read before. -/
def number (negative : Bool) (cs : List Symbol) : Except Fault (Written × List Symbol) := do
  let (whole, rest) := digits cs
  match whole with
  | [] => .error (missingDigit rest)
  | 0 :: _ :: _ => .error (.always .malformed)
  | whole =>
    let (fraction, rest) ← fractionPart rest
    let (exponent, rest) ← exponentPart rest
    return (⟨negative, whole, fraction, exponent⟩, rest)

/-- The four digits of an escaped code unit. -/
def hex4? (a b c d : Symbol) : Option Nat :=
  match a.bind Hash.hexValue?, b.bind Hash.hexValue?, c.bind Hash.hexValue?, d.bind Hash.hexValue? with
  | some a, some b, some c, some d => some (4096 * a + 256 * b + 16 * c + d)
  | _, _, _, _ => none

def isLead (n : Nat) : Bool := 0xD800 ≤ n && n < 0xDC00

def isTrail (n : Nat) : Bool := 0xDC00 ≤ n && n < 0xE000

/-- A string as far as it has been read. -/
structure Partial where
  /-- The characters, the last one first. -/
  reversed : List Char := []
  /-- The first half of a surrogate pair that waits for its second half. -/
  lead : Option Nat := none
  /-- Whether half of a surrogate pair stands alone. -/
  lone : Bool := false
  /-- Whether some byte belongs to no character. -/
  stray : Bool := false

namespace Partial

/-- A first half is followed by something else. -/
def settle (p : Partial) : Partial := { p with lead := none, lone := p.lone || p.lead.isSome }

def push (p : Partial) (c : Char) : Partial :=
  let p := p.settle
  { p with reversed := c :: p.reversed }

/-- Adds an escaped code unit. -/
def pushUnit (p : Partial) (n : Nat) : Partial :=
  match p.lead with
  | some first =>
    if isTrail n then
      { p with
        lead := none
        reversed := Char.ofNat (0x10000 + 0x400 * (first - 0xD800) + (n - 0xDC00)) :: p.reversed }
    else { p.settle with lone := true }
  | none =>
    if isLead n then { p with lead := some n }
    else if isTrail n then { p with lone := true }
    else { p with reversed := Char.ofNat n :: p.reversed }

/-- A fault in the rest of the string comes after a surrogate that stands alone. -/
def fault (p : Partial) (c : Category) : Fault := ⟨if p.lone then .malformed else c, c⟩

/-- The text, if it is one. -/
def close (p : Partial) : Option String :=
  let p := p.settle
  if p.lone || p.stray then none else some (String.ofList p.reversed.reverse)

end Partial

/-- The character that a letter after a backslash stands for. -/
def escaped? : Char → Option Char
  | '"' => some '"'
  | '\\' => some '\\'
  | '/' => some '/'
  | 'b' => some '\x08'
  | 'f' => some '\x0c'
  | 'n' => some '\n'
  | 'r' => some '\r'
  | 't' => some '\t'
  | _ => none

/-- Reads a string up to its closing quote. -/
def string (p : Partial) : List Symbol → Except Fault (Option String × List Symbol)
  | [] => .error (p.fault .truncated)
  | none :: rest => string { p.settle with stray := true } rest
  | some '"' :: rest => .ok (p.close, rest)
  | some '\\' :: rest =>
    match rest with
    | [] => .error (p.fault .truncated)
    | some 'u' :: a :: b :: c :: d :: more =>
      match hex4? a b c d with
      | some n => string (p.pushUnit n) more
      | none => .error (p.fault .malformed)
    | some 'u' :: short =>
      .error (p.fault (if short.foldl (fun size s => size + symbolSize s) 0 < 4 then .truncated else .malformed))
    | none :: _ => .error (p.settle.fault .malformed)
    | some c :: more =>
      match escaped? c with
      | some e => string (p.push e) more
      | none => .error (p.settle.fault .malformed)
  | some c :: rest =>
    if c.toNat < 32 then .error (p.settle.fault .malformed) else string (p.push c) rest

/-- Reads the letters of a word that its first letter announces. -/
def word (letters : List Char) (t : Tree) (cs : List Symbol) : Tree × List Symbol :=
  match letters, cs with
  | [], rest => (t, rest)
  | _ :: _, [] => (.fault (.always .truncated), [])
  | l :: letters, c :: rest =>
    if c = some l then word letters t rest else (.fault (.always .malformed), [])

/-- The deepest nesting of containers that can be read. -/
def depthLimit : Nat := 127

mutual

/-- Reads a value inside `depth` containers. -/
def value (fuel depth : Nat) (cs : List Symbol) : Tree × List Symbol :=
  match fuel with
  | 0 => (.fault (.always .truncated), [])
  | fuel + 1 =>
    match skipSpace cs with
    | [] => (.fault (.always .truncated), [])
    | some 'n' :: rest => word ['u', 'l', 'l'] .null rest
    | some 't' :: rest => word ['r', 'u', 'e'] (.bool true) rest
    | some 'f' :: rest => word ['a', 'l', 's', 'e'] (.bool false) rest
    | some '"' :: rest =>
      match string {} rest with
      | .ok (s, rest) => (.string s, rest)
      | .error f => (.fault f, [])
    | some '[' :: rest =>
      let (ts, ending, rest) := firstItem fuel (depth + 1) rest
      (if depthLimit ≤ depth then .deep (.array ts ending) else .array ts ending, rest)
    | some '{' :: rest =>
      let (ms, ending, rest) := firstMember fuel (depth + 1) rest
      (if depthLimit ≤ depth then .deep (.object ms ending) else .object ms ending, rest)
    | some '-' :: rest =>
      match number true rest with
      | .ok (w, rest) => (.number w.value, rest)
      | .error f => (.fault f, [])
    | c :: rest =>
      if (digit? c).isSome then
        match number false (c :: rest) with
        | .ok (w, rest) => (.number w.value, rest)
        | .error f => (.fault f, [])
      else (.fault (.always .malformed), [])

/-- The items of an array after its opening bracket. -/
def firstItem (fuel depth : Nat) (cs : List Symbol) : List Tree × Ending × List Symbol :=
  match fuel with
  | 0 => ([], .broken (.always .truncated), [])
  | fuel + 1 =>
    match skipSpace cs with
    | [] => ([], .broken (.always .truncated), [])
    | some ']' :: rest => ([], .closed, rest)
    | rest => nextItem fuel depth [] rest

/-- Reads an item and what follows it; a comma at the end stands before an item that is a fault. -/
def nextItem (fuel depth : Nat) (done : List Tree) (cs : List Symbol) :
    List Tree × Ending × List Symbol :=
  match fuel with
  | 0 => (done.reverse, .broken (.always .truncated), [])
  | fuel + 1 =>
    match value fuel depth cs with
    | (.fault f, _) => ((.fault f :: done).reverse, .closed, [])
    | (t, rest) =>
      match skipSpace rest with
      | [] => ((t :: done).reverse, .broken (.always .truncated), [])
      | some ',' :: rest => nextItem fuel depth (t :: done) rest
      | some ']' :: rest => ((t :: done).reverse, .closed, rest)
      | _ => ((t :: done).reverse, .broken (.always .malformed), [])

/-- The members of an object after its opening bracket. -/
def firstMember (fuel depth : Nat) (cs : List Symbol) :
    List (Option String × Tree) × Ending × List Symbol :=
  match fuel with
  | 0 => ([], .broken (.always .truncated), [])
  | fuel + 1 =>
    match skipSpace cs with
    | some '}' :: rest => ([], .closed, rest)
    | rest => nextMember fuel depth [] rest

/-- Reads a key, its value and what follows. -/
def nextMember (fuel depth : Nat) (done : List (Option String × Tree)) (cs : List Symbol) :
    List (Option String × Tree) × Ending × List Symbol :=
  match fuel with
  | 0 => (done.reverse, .broken (.always .truncated), [])
  | fuel + 1 =>
    match skipSpace cs with
    | [] => (done.reverse, .broken (.always .truncated), [])
    | some '"' :: rest =>
      match string {} rest with
      | .error f => (done.reverse, .broken f, [])
      | .ok (key, rest) =>
        match skipSpace rest with
        | [] => (((key, .fault (.always .truncated)) :: done).reverse, .closed, [])
        | some ':' :: rest =>
          match value fuel depth rest with
          | (.fault f, _) => (((key, .fault f) :: done).reverse, .closed, [])
          | (t, rest) =>
            match skipSpace rest with
            | [] => (((key, t) :: done).reverse, .broken (.always .truncated), [])
            | some ',' :: rest => nextMember fuel depth ((key, t) :: done) rest
            | some '}' :: rest => (((key, t) :: done).reverse, .closed, rest)
            | _ => (((key, t) :: done).reverse, .broken (.always .malformed), [])
        | _ => (((key, .fault (.always .malformed)) :: done).reverse, .closed, [])
    | _ => (done.reverse, .broken (.always .malformed), [])

end

end Reader

/-- The value at the front of a text, and the text after it. -/
def Tree.ofSymbols (cs : List Symbol) : Tree × List Symbol := Reader.value (3 * cs.length + 3) 0 cs

/-- Reads a whole document; only white space may follow the value. -/
def parseSymbols {α : Type} (read : Tree → Reading α) (cs : List Symbol) : Reading α := do
  let (t, rest) := Tree.ofSymbols cs
  let v ← read t
  if (Reader.skipSpace rest).isEmpty then return v else .error .malformed

def parse {α : Type} (read : Tree → Reading α) (text : String) : Reading α :=
  parseSymbols read (Text.symbolsOfText text)

/-- Reads the document in a file. -/
def parseBytes {α : Type} (read : Tree → Reading α) (bytes : ByteArray) : Reading α :=
  parseSymbols read (Text.symbols bytes)

end StoryPress.Json
