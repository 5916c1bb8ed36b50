import StoryPress.Toml.Scalar
import StoryPress.Toml.Strings
import StoryPress.Toml.Table

/-!
# Reading TOML

A document is a list of statements: keys with values, and headers that open a table. `Toml.parse` reads a
document with a decoder; what is wrong with a document is not told.
-/

namespace StoryPress.Toml

def skipBlank (cs : List Char) : List Char := cs.dropWhile isBlank

/-- Passes over blanks, line ends and comments; nothing if a comment holds a control character. -/
def skipGap (comment : Bool) : List Char → Option (List Char)
  | [] => some []
  | '\n' :: rest => skipGap false rest
  | '\r' :: '\n' :: rest => skipGap false rest
  | c :: rest =>
    if comment then (if isPlain c then skipGap true rest else none)
    else if isBlank c then skipGap false rest
    else if c = '#' then skipGap true rest
    else some (c :: rest)

/-- Passes over the end of a statement: blanks, a comment and a line end. -/
def statementEnd (cs : List Char) : Option (List Char) :=
  let rest :=
    match skipBlank cs with
    | '#' :: rest => rest.dropWhile isPlain
    | rest => rest
  match rest with
  | [] => some []
  | '\n' :: rest => some rest
  | '\r' :: '\n' :: rest => some rest
  | _ => none

def isBareKey (c : Char) : Bool := c.isAlphanum || c = '_' || c = '-'

/-- Reads one part of a key. -/
def keyPart (cs : List Char) : Option (String × List Char) :=
  match cs with
  | '"' :: rest => basicFrom (cs.length + 1) [] rest
  | '\'' :: rest => literalFrom [] rest
  | _ =>
    let bare := cs.takeWhile isBareKey
    if bare.isEmpty then none else some (String.ofList bare, cs.dropWhile isBareKey)

/-- Reads the parts of a key with periods between them. -/
def keyFrom : Nat → List Char → Option (List String × List Char)
  | 0, _ => none
  | fuel + 1, cs =>
    match keyPart (skipBlank cs) with
    | none => none
    | some (part, rest) =>
      match skipBlank rest with
      | '.' :: rest => (keyFrom fuel rest).map fun (parts, rest) => (part :: parts, rest)
      | rest => some ([part], rest)

/-- Reads a key, and passes over the blanks around it. -/
def key? (cs : List Char) : Option (List String × List Char) := keyFrom (cs.length + 1) cs

/-- Characters that end a word. -/
def endsWord (c : Char) : Bool := [' ', '\t', '\n', '\r', ',', ']', '}', '#'].contains c

/-- Whether a text begins like a time of day. -/
def startsTime : List Char → Bool
  | a :: b :: ':' :: _ => a.isDigit && b.isDigit
  | _ => false

/-- Reads a word; a blank may stand between a date and a time. -/
def word (cs : List Char) : List Char × List Char :=
  let first := cs.takeWhile (!endsWord ·)
  match cs.dropWhile (!endsWord ·) with
  | ' ' :: rest =>
    if date? first == some [] && startsTime rest then
      (first ++ ' ' :: rest.takeWhile (!endsWord ·), rest.dropWhile (!endsWord ·))
    else (first, ' ' :: rest)
  | rest => (first, rest)

/-- The deepest nesting of arrays and tables between braces. -/
def depthLimit : Nat := 80

mutual

/-- Reads a value inside `depth` others. -/
def value? (fuel depth : Nat) (cs : List Char) : Option (Value × List Char) :=
  match fuel with
  | 0 => none
  | fuel + 1 =>
    match cs with
    | '[' :: rest => if depthLimit ≤ depth then none else itemsFrom fuel (depth + 1) [] rest
    | '{' :: rest => if depthLimit ≤ depth then none else membersFrom fuel (depth + 1) [] rest
    | _ =>
      if cs.head? = some '"' || cs.head? = some '\'' then
        (string? cs).map fun (s, rest) => (.scalar (.string (some s)), rest)
      else
        let (w, rest) := word cs
        (wordTree? w).map fun t => (.scalar t, rest)

/-- Reads the items of an array up to its closing bracket; a comma may follow the last one. -/
def itemsFrom (fuel depth : Nat) (reversed : List Value) (cs : List Char) : Option (Value × List Char) :=
  match fuel with
  | 0 => none
  | fuel + 1 =>
    match skipGap false cs with
    | none => none
    | some (']' :: rest) => some (.array reversed.reverse, rest)
    | some cs =>
      match value? fuel depth cs with
      | none => none
      | some (v, rest) =>
        match skipGap false rest with
        | some (',' :: rest) => itemsFrom fuel depth (v :: reversed) rest
        | some (']' :: rest) => some (.array (v :: reversed).reverse, rest)
        | _ => none

/-- Reads the members of a table between braces. -/
def membersFrom (fuel depth : Nat) (done : Entries) (cs : List Char) : Option (Value × List Char) :=
  match fuel with
  | 0 => none
  | fuel + 1 =>
    match skipGap false cs with
    | none => none
    | some ('}' :: rest) => some (.table .braces done, rest)
    | some cs =>
      match key? cs with
      | some (keys, '=' :: rest) =>
        match value? fuel depth (skipBlank rest) with
        | none => none
        | some (v, rest) =>
          match Entries.assign v keys done, skipGap false rest with
          | some done, some (',' :: rest) => membersFrom fuel depth done rest
          | some done, some ('}' :: rest) => some (.table .braces done, rest)
          | _, _ => none
      | _ => none

end

/-- A document as far as it has been read. -/
structure Draft where
  entries : Entries := []
  /-- The header of the open table. -/
  header : List String := []
deriving Inhabited

/-- Reads a statement. -/
def Draft.statement (d : Draft) (cs : List Char) : Option (Draft × List Char) :=
  match cs with
  | '[' :: '[' :: rest =>
    match key? rest with
    | some (path, ']' :: ']' :: rest) => (d.entries.openItem path).map fun es => (⟨es, path⟩, rest)
    | _ => none
  | '[' :: rest =>
    match key? rest with
    | some (path, ']' :: rest) => (d.entries.openTable path).map fun es => (⟨es, path⟩, rest)
    | _ => none
  | _ =>
    match key? cs with
    | some (keys, '=' :: rest) => do
      let (v, rest) ← value? (2 * rest.length + 2) 0 (skipBlank rest)
      let es ← Entries.descend (Entries.assign v keys) d.header d.entries
      return ({ d with entries := es }, rest)
    | _ => none

/-- Reads statements up to the end. -/
def Draft.statements : Nat → Draft → List Char → Option Draft
  | 0, _, _ => none
  | fuel + 1, d, cs =>
    match skipGap false cs with
    | none => none
    | some [] => some d
    | some cs => do
      let (d, rest) ← d.statement cs
      let rest ← statementEnd rest
      Draft.statements fuel d rest

/-- Reads a document; a mark of the byte order may stand at its front. -/
def document? (text : String) : Option Json.Tree :=
  let cs :=
    match text.toList with
    | '\uFEFF' :: rest => rest
    | cs => cs
  ((({} : Draft).statements (cs.length + 1) cs)).map fun d => (Value.table .header d.entries).tree

def parse {α : Type} (read : Json.Tree → Json.Reading α) (text : String) : Option α :=
  (document? text).bind fun t => (read t).toOption

end StoryPress.Toml
