import StoryPress.Document.Basic
import StoryPress.OrderedMap

/-!
# Viewpoint catalogs

A catalog lists viewpoints in the order in which they were first met, each once, beside the position of each id
in that list. The first name that is not blank is kept.
-/

namespace StoryPress

structure Viewpoint where
  id : String
  name : Option String
deriving DecidableEq, Inhabited

def Viewpoint.display (v : Viewpoint) : String := v.name.getD v.id

/-- Where nothing is listed no id has a position. -/
theorem Viewpoint.indexed_nil (id : String) (i : Nat) :
    (∅ : OrderedMap String Nat).get? id = some i ↔ (([] : List Viewpoint)[i]?).map (·.id) = some id := by
  rw [OrderedMap.get?_empty, List.getElem?_nil]
  constructor
  · intro h
    cases h
  · intro h
    cases h

structure ViewpointCatalog where
  entries : List Viewpoint := []
  positions : OrderedMap String Nat := ∅
  /-- An id has the one position at which it is listed. -/
  indexed : ∀ id i, positions.get? id = some i ↔ (entries[i]?).map (·.id) = some id := by exact Viewpoint.indexed_nil
deriving DecidableEq, Inhabited

namespace ViewpointCatalog

def ids (c : ViewpointCatalog) : List String := c.entries.map (·.id)

def find? (c : ViewpointCatalog) (id : String) : Option Viewpoint :=
  (c.positions.get? id).bind fun i => c.entries[i]?

def contains (c : ViewpointCatalog) (id : String) : Bool := c.positions.contains id

def isEmpty (c : ViewpointCatalog) : Bool := c.entries.isEmpty

/-- Lists a viewpoint whose id is not listed yet. -/
def push (c : ViewpointCatalog) (v : Viewpoint) (h : c.positions.get? v.id = none) : ViewpointCatalog where
  entries := c.entries ++ [v]
  positions := c.positions.insert v.id c.entries.length
  indexed id i := by
    rw [OrderedMap.get?_insert]
    by_cases hid : id = v.id
    · subst hid
      have hno : (c.entries[i]?).map (·.id) ≠ some v.id := by
        rw [Ne, ← c.indexed, h]
        simp
      grind
    · have hne : compare id v.id ≠ .eq := fun heq => hid (Std.LawfulEqCmp.eq_of_compare heq)
      rw [if_neg hne, c.indexed]
      grind

/-- Names the viewpoint at a position, if it has no name yet. -/
def nameAt (c : ViewpointCatalog) (i : Nat) (name : Option String) : ViewpointCatalog where
  entries := c.entries.modify i fun v => { v with name := v.name.or name }
  positions := c.positions
  indexed id j := by
    rw [c.indexed, List.getElem?_modify]
    split <;> simp [Option.map_map, Function.comp_def]

/-- Adds a viewpoint, or the name of one that is listed without a name. Ids and names are trimmed; a blank id
is none. -/
def add (c : ViewpointCatalog) (id : String) (name : Option String) : ViewpointCatalog :=
  match Text.nonBlank? id with
  | none => c
  | some id =>
    let name := name.bind Text.nonBlank?
    match h : c.positions.get? id with
    | some i => c.nameAt i name
    | none => c.push ⟨id, name⟩ h

def addTag (c : ViewpointCatalog) (t : ViewpointTag) : ViewpointCatalog := c.add t.id t.name?

/-- Adds the viewpoints of another catalog in their order. -/
def extend (c other : ViewpointCatalog) : ViewpointCatalog :=
  other.entries.foldl (fun c v => c.add v.id v.name) c

/-- Gives viewpoints without a name the names that a world has for them. No viewpoint is added. -/
def nameFrom (c : ViewpointCatalog) (w : World) : ViewpointCatalog :=
  w.povs.foldl (fun c t =>
    match c.positions.get? t.id with
    | some i => c.nameAt i t.name?
    | none => c) c

end ViewpointCatalog

end StoryPress
