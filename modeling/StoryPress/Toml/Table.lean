import StoryPress.Json.Tree

/-!
# TOML tables

A document fills one table, statement by statement. How a table came to be decides what may still be added to
it: a header may not name a table twice, and a dotted key may not reach into a table that a header made.
-/

namespace StoryPress.Toml

/-- How a table came to be. -/
inductive Origin where
  /-- A header names it. -/
  | header
  /-- A header names a table further down. -/
  | passing
  /-- It lies on the way of a dotted key. -/
  | dotted
  /-- It is written between braces, and so is complete. -/
  | braces
deriving DecidableEq, Inhabited

inductive Value where
  | scalar (t : Json.Tree)
  | array (items : List Value)
  /-- The tables that one double header names; the last one is open. -/
  | tables (items : List (List (String × Value)))
  | table (origin : Origin) (entries : List (String × Value))
deriving Inhabited

/-- The entries of a table, each key once. -/
abbrev Entries := List (String × Value)

namespace Entries

/-- Gives a key that is there another value. -/
def replace (es : Entries) (key : String) (v : Value) : Entries :=
  es.map fun e => if e.1 = key then (key, v) else e

/-- Changes the table that the keys of a header lead to, and makes the tables that are missing on the way. -/
def descend (change : Entries → Option Entries) : List String → Entries → Option Entries
  | [], es => change es
  | k :: ks, es =>
    match es.lookup k with
    | none => (descend change ks []).map fun inner => es ++ [(k, .table .passing inner)]
    | some (.table .braces _) => none
    | some (.table origin inner) =>
      (descend change ks inner).map fun inner => es.replace k (.table origin inner)
    | some (.tables ts) =>
      match ts.getLast? with
      | none => none
      | some last => (descend change ks last).map fun last => es.replace k (.tables (ts.dropLast ++ [last]))
    | some _ => none

/-- Opens the table of a header. -/
def openTable (path : List String) (es : Entries) : Option Entries :=
  match path.getLast? with
  | none => none
  | some k =>
    descend (fun es =>
      match es.lookup k with
      | none => some (es ++ [(k, .table .header [])])
      | some (.table .passing inner) => some (replace es k (.table .header inner))
      | some _ => none) path.dropLast es

/-- Opens the next table of a double header. -/
def openItem (path : List String) (es : Entries) : Option Entries :=
  match path.getLast? with
  | none => none
  | some k =>
    descend (fun es =>
      match es.lookup k with
      | none => some (es ++ [(k, .tables [[]])])
      | some (.tables ts) => some (replace es k (.tables (ts ++ [[]])))
      | some _ => none) path.dropLast es

/-- Sets a dotted key that is not set yet. -/
def assign (v : Value) : List String → Entries → Option Entries
  | [], _ => none
  | [k], es => if (es.lookup k).isSome then none else some (es ++ [(k, v)])
  | k :: k' :: ks, es =>
    match es.lookup k with
    | none => (assign v (k' :: ks) []).map fun inner => es ++ [(k, .table .dotted inner)]
    | some (.table .dotted inner) =>
      (assign v (k' :: ks) inner).map fun inner => es.replace k (.table .dotted inner)
    | some (.table .passing inner) =>
      if ks.isEmpty then none
      else (assign v (k' :: ks) inner).map fun inner => es.replace k (.table .passing inner)
    | some (.tables ts) =>
      match ts.getLast? with
      | none => none
      | some last =>
        if ks.isEmpty then none
        else (assign v (k' :: ks) last).map fun last => es.replace k (.tables (ts.dropLast ++ [last]))
    | some _ => none

end Entries

mutual

/-- The value as a document to be read. Arrays may be longer than a record has fields. -/
def Value.tree : Value → Json.Tree
  | .scalar t => t
  | .array items => .array (treeItems items) .tolerant
  | .tables ts => .array (treeTables ts) .tolerant
  | .table _ es => .object (treeEntries es) .closed

def treeItems : List Value → List Json.Tree
  | [] => []
  | v :: vs => v.tree :: treeItems vs

def treeTables : List (List (String × Value)) → List Json.Tree
  | [] => []
  | es :: rest => .object (treeEntries es) .closed :: treeTables rest

def treeEntries : List (String × Value) → List (Option String × Json.Tree)
  | [] => []
  | (k, v) :: rest => (some k, v.tree) :: treeEntries rest

end

end StoryPress.Toml
