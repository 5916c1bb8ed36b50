/-!
# Edits between two lists of lines

`edits` compares two lists with the fewest deletions and insertions. Common lines at both ends are set
aside; the rest is split at a point on a shortest path, which is found by searching from both ends at once,
and both parts are compared in the same way.
-/

namespace StoryPress.Diff

/-- One step from the old lines to the new ones. Positions are line numbers from zero. -/
inductive Edit where
  | equal (old new length : Nat)
  | delete (old length new : Nat)
  | insert (old new length : Nat)
  | replace (old oldLength new newLength : Nat)
deriving DecidableEq, Inhabited

namespace Edit

def oldStart : Edit → Nat
  | equal o _ _ | delete o _ _ | insert o _ _ | replace o _ _ _ => o

def newStart : Edit → Nat
  | equal _ n _ | delete _ _ n | insert _ n _ | replace _ _ n _ => n

/-- How many old lines it covers. -/
def oldLength : Edit → Nat
  | equal _ _ l | delete _ l _ | replace _ l _ _ => l
  | insert _ _ _ => 0

/-- How many new lines it covers. -/
def newLength : Edit → Nat
  | equal _ _ l | insert _ _ l | replace _ _ _ l => l
  | delete _ _ _ => 0

end Edit

/-- The lines that are compared, as numbers that are equal where the lines are. -/
structure Sides where
  old : Array Nat
  new : Array Nat

/-- A part of both sides: from `left` and `top` up to `right` and `bottom`. -/
structure Box where
  left : Nat
  right : Nat
  top : Nat
  bottom : Nat

namespace Sides

/-- The number of equal lines from two positions on, at most `limit`. -/
def commonStart (s : Sides) (i j : Nat) : Nat → Nat
  | 0 => 0
  | limit + 1 => if s.old[i]? = s.new[j]? then commonStart s (i + 1) (j + 1) limit + 1 else 0

/-- The number of equal lines before two positions, at most `limit`. -/
def commonEnd (s : Sides) (i j : Nat) : Nat → Nat
  | 0 => 0
  | limit + 1 => if s.old[i - 1]? = s.new[j - 1]? then commonEnd s (i - 1) (j - 1) limit + 1 else 0

end Sides

/-- How far the search has come on each diagonal, from both ends. Diagonal `k` is kept at `k + offset`. -/
structure Fronts where
  offset : Int
  forward : Array Int
  backward : Array Int

namespace Fronts

def get (f : Fronts) (front : Array Int) (k : Int) : Int := front.getD (k + f.offset).toNat 0

/-- The start of the next step on a diagonal: down from the diagonal above, or right from the one below. -/
def reach (f : Fronts) (front : Array Int) (d k : Int) : Int :=
  if k = -d || (k ≠ d && f.get front (k - 1) < f.get front (k + 1)) then f.get front (k + 1)
  else f.get front (k - 1) + 1

def setForward (f : Fronts) (k x : Int) : Fronts :=
  { f with forward := f.forward.setIfInBounds (k + f.offset).toNat x }

def setBackward (f : Fronts) (k x : Int) : Fronts :=
  { f with backward := f.backward.setIfInBounds (k + f.offset).toNat x }

end Fronts

namespace Box

def width (b : Box) : Nat := b.right - b.left

def height (b : Box) : Nat := b.bottom - b.top

def delta (b : Box) : Int := b.width - b.height

/-- The diagonals of a round: from `d` down to `-d` in steps of two. -/
def diagonals (d : Nat) : List Int := (List.range (d + 1)).map fun (i : Nat) => (d : Int) - 2 * i

/-- Searches forward on the diagonals of a round, until the fronts meet. -/
def searchForward (s : Sides) (b : Box) (d : Nat) : List Int → Fronts → Fronts × Option (Nat × Nat)
  | [], f => (f, none)
  | k :: ks, f =>
    let x := f.reach f.forward d k
    let y := x - k
    let run : Nat :=
      if x < b.width && 0 ≤ y && y < b.height then
        s.commonStart (b.left + x.toNat) (b.top + y.toNat) (min (b.width - x.toNat) (b.height - y.toNat))
      else 0
    let far := x + run
    let f := f.setForward k far
    if b.delta % 2 ≠ 0 && (k - b.delta).natAbs + 1 ≤ d &&
        b.width ≤ far + f.get f.backward (b.delta - k) then
      (f, some (b.left + x.toNat, b.top + y.toNat))
    else searchForward s b d ks f

/-- Searches backward on the diagonals of a round, until the fronts meet. -/
def searchBackward (s : Sides) (b : Box) (d : Nat) : List Int → Fronts → Fronts × Option (Nat × Nat)
  | [], f => (f, none)
  | k :: ks, f =>
    let x := f.reach f.backward d k
    let y := x - k
    let run : Nat :=
      if x < b.width && 0 ≤ y && y < b.height then
        s.commonEnd (b.right - x.toNat) (b.bottom - y.toNat) (min (b.width - x.toNat) (b.height - y.toNat))
      else 0
    let far := x + run
    let f := f.setBackward k far
    if b.delta % 2 = 0 && (k - b.delta).natAbs ≤ d && b.width ≤ far + f.get f.forward (b.delta - k) then
      (f, some ((b.right - far).toNat, (b.bottom - (y + run)).toNat))
    else searchBackward s b d ks f

/-- Searches round after round; `d` is the number of the round. -/
def searchFrom (s : Sides) (b : Box) : Nat → Nat → Fronts → Option (Nat × Nat)
  | 0, _, _ => none
  | fuel + 1, d, f =>
    match searchForward s b d (diagonals d) f with
    | (_, some p) => some p
    | (f, none) =>
      match searchBackward s b d (diagonals d) f with
      | (_, some p) => some p
      | (f, none) => searchFrom s b fuel (d + 1) f

/-- A point on a shortest path through the box. -/
def middle? (s : Sides) (b : Box) : Option (Nat × Nat) :=
  let rounds := (b.width + b.height + 1) / 2 + 1
  let empty := Array.replicate (2 * rounds + 3) (0 : Int)
  searchFrom s b rounds 0 ⟨rounds + 1, empty, empty⟩

/-- The edits of a box. -/
def edits (s : Sides) : Nat → Box → List Edit
  | 0, _ => []
  | fuel + 1, b =>
    let start := s.commonStart b.left b.top (min b.width b.height)
    let left := b.left + start
    let top := b.top + start
    let finish := s.commonEnd b.right b.bottom (min (b.right - left) (b.bottom - top))
    let right := b.right - finish
    let bottom := b.bottom - finish
    let rest : Box := ⟨left, right, top, bottom⟩
    let inner :=
      if left = right && top = bottom then []
      else if top = bottom then [.delete left (right - left) top]
      else if left = right then [.insert left top (bottom - top)]
      else
        match rest.middle? s with
        | some (x, y) => edits s fuel ⟨left, x, top, y⟩ ++ edits s fuel ⟨x, right, y, bottom⟩
        | none => [.delete left (right - left) top, .insert left top (bottom - top)]
    (if start = 0 then [] else [.equal b.left b.top start]) ++ inner ++
      (if finish = 0 then [] else [.equal right bottom finish])

end Box

/-- The edits from the old lines to the new ones. -/
def Sides.edits (s : Sides) : List Edit :=
  Box.edits s (s.old.size + s.new.size + 2) ⟨0, s.old.size, 0, s.new.size⟩

end StoryPress.Diff
