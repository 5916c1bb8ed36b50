/-!
# Timestamps

A timestamp counts seconds from the start of 1970. It is written in the Gregorian calendar, in universal
time. Years from 0 to 9999 have four digits; others have a sign and at least four.
-/

namespace StoryPress

/-- A day of the Gregorian calendar. -/
structure CivilDate where
  year : Int
  month : Nat
  day : Nat
deriving DecidableEq, Inhabited

/-- The date `days` days after the first of January 1970. Years are counted from March, so that a leap day
comes last. -/
def CivilDate.ofDays (days : Int) : CivilDate :=
  let z := days + 719468
  let era := z / 146097
  let dayOfEra := (z % 146097).toNat
  let yearOfEra := (dayOfEra - dayOfEra / 1460 + dayOfEra / 36524 - dayOfEra / 146096) / 365
  let dayOfYear := dayOfEra - (365 * yearOfEra + yearOfEra / 4 - yearOfEra / 100)
  let shifted := (5 * dayOfYear + 2) / 153
  let month := if shifted < 10 then shifted + 3 else shifted - 9
  { year := era * 400 + yearOfEra + if month ≤ 2 then 1 else 0
    month := month
    day := dayOfYear - (153 * shifted + 2) / 5 + 1 }

structure Timestamp where
  seconds : Int
deriving DecidableEq, Inhabited

namespace Timestamp

/-- The first and the last second that can be written. -/
def first : Int := -8334601228800

def last : Int := 8210266876799

def ofSeconds? (seconds : Int) : Option Timestamp :=
  if first ≤ seconds && seconds ≤ last then some ⟨seconds⟩ else none

/-- A number with zeros in front, up to a width. -/
def padded (width n : Nat) : String :=
  let digits := Nat.toDigits 10 n
  String.ofList (List.replicate (width - digits.length) '0' ++ digits)

def yearText (year : Int) : String :=
  if 0 ≤ year && year ≤ 9999 then padded 4 year.toNat
  else (if year < 0 then "-" else "+") ++ padded 4 year.natAbs

/-- The date and the time of day. -/
def text (t : Timestamp) : String :=
  let date := CivilDate.ofDays (t.seconds / 86400)
  let second := (t.seconds % 86400).toNat
  yearText date.year ++ "-" ++ padded 2 date.month ++ "-" ++ padded 2 date.day ++ "T" ++
    padded 2 (second / 3600) ++ ":" ++ padded 2 (second / 60 % 60) ++ ":" ++ padded 2 (second % 60) ++ "Z"

end Timestamp

end StoryPress
