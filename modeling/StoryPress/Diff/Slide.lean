import StoryPress.Diff.Edit

/-!
# Sliding edits

An insertion between equal lines can often be moved: it is slid up as far as it goes, and then down as far as
it goes. On the way neighbouring deletions and insertions change places or are joined. Deletions are moved
first, past insertions alone, then insertions.
-/

namespace StoryPress.Diff

/-- An edit with the edits before it, the nearest first, and those after it. -/
structure Focus where
  before : List Edit
  this : Edit
  after : List Edit

/-- An insertion that can slide up over the end of equal lines, by how many lines. -/
def Sides.slackUp (s : Sides) (above : Edit) : Edit → Nat
  | .insert _ new length =>
    s.commonEnd (above.oldStart + above.oldLength) (new + length) (min above.oldLength length)
  | _ => 0

/-- An insertion that can slide down over the start of equal lines, by how many lines. -/
def Sides.slackDown (s : Sides) (above : Edit) : Edit → Nat
  | .insert _ new length => s.commonStart above.oldStart new (min above.oldLength length)
  | _ => 0

namespace Edit

def isEmpty (e : Edit) : Bool := e.oldLength = 0 && e.newLength = 0

/-- Moves an edit by `n` lines towards the end of both sides. -/
def down (n : Nat) : Edit → Edit
  | equal o w l => equal (o + n) (w + n) l
  | delete o l w => delete (o + n) l (w + n)
  | insert o w l => insert (o + n) (w + n) l
  | replace o l w m => replace (o + n) l (w + n) m

/-- Moves an edit by `n` lines towards the start of both sides. -/
def up (n : Nat) : Edit → Edit
  | equal o w l => equal (o - n) (w - n) l
  | delete o l w => delete (o - n) l (w - n)
  | insert o w l => insert (o - n) (w - n) l
  | replace o l w m => replace (o - n) l (w - n) m

/-- Changes how many lines an edit covers. -/
def resize (f : Nat → Nat) : Edit → Edit
  | equal o w l => equal o w (f l)
  | delete o l w => delete o (f l) w
  | insert o w l => insert o w (f l)
  | replace o l w m => replace o (f l) w (f m)

/-- How many lines an edit covers on the side that it changes. -/
def length : Edit → Nat
  | equal _ _ l | delete _ l _ | insert _ _ l => l
  | replace _ l _ m => l + m

end Edit

namespace Focus

/-- Puts `n` equal lines in front of what comes after. -/
def growAfter (n : Nat) (above this : Edit) : List Edit → List Edit
  | .equal o w l :: rest => (Edit.equal o w l |>.up n |>.resize (· + n)) :: rest
  | rest => .equal (above.oldStart + above.oldLength - n) (this.newStart + this.newLength - n) n :: rest

/-- Puts `n` equal lines after what comes before. -/
def growBefore (n : Nat) (above this : Edit) : List Edit → List Edit
  | .equal o w l :: rest => .equal o w (l + n) :: rest
  | rest => .equal above.oldStart this.newStart n :: rest

/-- Slides the edit up. -/
def slideUp (s : Sides) : Nat → Focus → Focus
  | 0, f => f
  | fuel + 1, f =>
    match f.before with
    | [] => f
    | above :: before =>
      match above, f.this with
      | .equal _ _ _, this =>
        let n := s.slackUp above this
        if 0 < n then
          let shorter := above.resize (· - n)
          slideUp s fuel ⟨if shorter.isEmpty then before else shorter :: before, this.up n,
            growAfter n above this f.after⟩
        else if above.isEmpty then slideUp s fuel ⟨before, this, f.after⟩
        else f
      | .insert _ _ _, .insert _ _ _ | .delete _ _ _, .delete _ _ _ =>
        slideUp s fuel ⟨before, above.resize (· + f.this.length), f.after⟩
      | _, _ => slideUp s fuel ⟨before, f.this, above :: f.after⟩

/-- Slides the edit down. -/
def slideDown (s : Sides) : Nat → Focus → Focus
  | 0, f => f
  | fuel + 1, f =>
    match f.after with
    | [] => f
    | above :: after =>
      match above, f.this with
      | .equal _ _ _, this =>
        let n := s.slackDown above this
        if 0 < n then
          let shorter := (above.down n).resize (· - n)
          slideDown s fuel ⟨growBefore n above this f.before, this.down n,
            if shorter.isEmpty then after else shorter :: after⟩
        else if above.isEmpty then slideDown s fuel ⟨f.before, this, after⟩
        else f
      | .insert _ _ _, .insert _ _ _ | .delete _ _ _, .delete _ _ _ =>
        slideDown s fuel ⟨f.before, f.this.resize (· + above.length), after⟩
      | _, _ => slideDown s fuel ⟨above :: f.before, f.this, after⟩

/-- Slides the edits that are picked, one after the other. -/
def slideAll (s : Sides) (picked : Edit → Bool) : Nat → List Edit → List Edit → List Edit
  | 0, before, after => before.reverse ++ after
  | _, before, [] => before.reverse
  | fuel + 1, before, e :: after =>
    if picked e then
      let f := slideDown s fuel (slideUp s fuel ⟨before, e, after⟩)
      slideAll s picked fuel (f.this :: f.before) f.after
    else slideAll s picked fuel (e :: before) after

end Focus

/-- A deletion and an insertion that meet become a replacement; equal lines that meet are joined. -/
def joinEdits : List Edit → List Edit
  | [] => []
  | .equal o w l :: rest =>
    match joinEdits rest with
    | .equal _ _ m :: more => .equal o w (l + m) :: more
    | more => .equal o w l :: more
  | .delete o l w :: rest =>
    match joinEdits rest with
    | .delete _ m _ :: more => .delete o (l + m) w :: more
    | .insert _ w m :: more => .replace o l w m :: more
    | .replace _ m w k :: more => .replace o (l + m) w k :: more
    | more => .delete o l w :: more
  | .insert o w l :: rest =>
    match joinEdits rest with
    | .insert _ _ m :: more => .insert o w (l + m) :: more
    | .delete o m _ :: more => .replace o m w l :: more
    | .replace o m _ k :: more => .replace o m w (l + k) :: more
    | more => .insert o w l :: more
  | e :: rest => e :: joinEdits rest

/-- The edits from the old lines to the new ones, slid and joined. -/
def Sides.tidyEdits (s : Sides) : List Edit :=
  let size := s.old.size + s.new.size + 4
  let fuel := size * size
  let isDeletion (e : Edit) : Bool := match e with | .delete _ _ _ => true | _ => false
  let isInsertion (e : Edit) : Bool := match e with | .insert _ _ _ => true | _ => false
  joinEdits (Focus.slideAll s isInsertion fuel [] (Focus.slideAll s isDeletion fuel [] s.edits))

end StoryPress.Diff
