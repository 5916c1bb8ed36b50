import StoryPress.Text.Blank
import StoryPress.Time.Timestamp

/-!
# Pinned times

The variable `SOURCE_DATE_EPOCH` pins the time of an export, as a decimal number of seconds.
-/

namespace StoryPress

/-- Why a text is no number of seconds. -/
inductive SecondsFault where
  | empty
  | invalidDigit
  | tooLarge
  | tooSmall
deriving DecidableEq, Inhabited

def SecondsFault.message : SecondsFault → String
  | empty => "cannot parse integer from empty string"
  | invalidDigit => "invalid digit found in string"
  | tooLarge => "number too large to fit in target type"
  | tooSmall => "number too small to fit in target type"

/-- Reads digits after `n`, which must not grow beyond `limit`. -/
def digitsWithin (limit : Nat) (beyond : SecondsFault) (n : Nat) : List Char → Except SecondsFault Nat
  | [] => .ok n
  | c :: rest =>
    if !c.isDigit then .error .invalidDigit
    else
      let m := 10 * n + (c.toNat - '0'.toNat)
      if limit < m then .error beyond else digitsWithin limit beyond m rest

/-- Reads an integer of 64 bits. -/
def secondsOf (cs : List Char) : Except SecondsFault Int :=
  match cs with
  | [] => .error .empty
  | ['+'] | ['-'] => .error .invalidDigit
  | '-' :: ds => (digitsWithin (1 <<< 63) .tooSmall 0 ds).map fun n => -(n : Int)
  | '+' :: ds => (digitsWithin ((1 <<< 63) - 1) .tooLarge 0 ds).map fun n => (n : Int)
  | ds => (digitsWithin ((1 <<< 63) - 1) .tooLarge 0 ds).map fun n => (n : Int)

/-- Why a time cannot be pinned. -/
inductive PinFault where
  | notSeconds (raw : String) (cause : SecondsFault)
  | outOfRange (seconds : Int)
deriving DecidableEq, Inhabited

namespace PinFault

def message : PinFault → String
  | notSeconds raw _ => "Invalid SOURCE_DATE_EPOCH '" ++ raw ++ "'"
  | outOfRange seconds => "SOURCE_DATE_EPOCH out of range: " ++ toString seconds

def cause? : PinFault → Option String
  | notSeconds _ cause => some cause.message
  | outOfRange _ => none

end PinFault

/-- The time that the text of the variable pins. -/
def Timestamp.pin (raw : String) : Except PinFault Timestamp :=
  match secondsOf (Text.trim raw).toList with
  | .error cause => .error (.notSeconds raw cause)
  | .ok seconds =>
    match Timestamp.ofSeconds? seconds with
    | some t => .ok t
    | none => .error (.outOfRange seconds)

end StoryPress
