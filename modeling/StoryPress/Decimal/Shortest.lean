/-!
# The shortest decimal that reads back

A positive double is `m * 2 ^ q`. Of the decimals that are closer to it than to any other double, the one
with the fewest digits is chosen, and of those the nearest. The search tries one digit, two digits, and so
on; on each grid only the two neighbours of the value can qualify. Seventeen digits always do.
-/

namespace StoryPress.Decimal

/-- The value `digits * 10 ^ exponent`. -/
structure Scaled where
  digits : Nat
  exponent : Int
deriving DecidableEq

/-- A positive double as `m * 2 ^ q`, with its rounding interval from `low / 4` to `high / 4` of a unit
`2 ^ q`. The ends belong to it if `m` is even. -/
structure Rounding where
  m : Nat
  q : Int
  low : Nat
  high : Nat

/-- The fields of a positive finite double with the given bits. -/
def Rounding.ofBits (bits : UInt64) : Rounding :=
  let field := ((bits >>> 52) &&& 0x7FF).toNat
  let fraction := (bits &&& 0xFFFFFFFFFFFFF).toNat
  let m := if field = 0 then fraction else fraction + (1 <<< 52)
  let q : Int := if field = 0 then -1074 else (field : Int) - 1075
  { m := m, q := q,
    low := if fraction = 0 && 1 < field then 4 * m - 1 else 4 * m - 2,
    high := 4 * m + 2 }

/-- Whether `x` quarter units of `2 ^ q`, times `num / den`, lie in the interval. -/
private def Rounding.holds (r : Rounding) (digits scaleUp scaleDown : Nat) : Bool :=
  let x := digits * scaleUp
  let low := r.low * scaleDown
  let high := r.high * scaleDown
  if r.m % 2 = 0 then low ≤ x && x ≤ high else low < x && x < high

/-- The number of decimal digits of a positive number. -/
def digitCount (n : Nat) : Nat := (Nat.toDigits 10 n).length

/-- The best decimal with unit `10 ^ exponent`, if one lies in the interval. -/
def Rounding.onGrid? (r : Rounding) (exponent : Int) : Option Scaled :=
  -- a decimal `d` is compared with quarter units: `d * scaleUp` against `x * scaleDown`
  let scaleUp := (4 * Nat.pow 10 exponent.toNat) <<< (-r.q).toNat
  let scaleDown := Nat.pow 10 (-exponent).toNat <<< r.q.toNat
  let value := 4 * r.m * scaleDown
  let below := value / scaleUp
  let above := below + 1
  let lowFits := 0 < below && r.holds below scaleUp scaleDown
  let highFits := r.holds above scaleUp scaleDown
  let pick :=
    if lowFits && highFits then
      some (if value - below * scaleUp ≤ above * scaleUp - value then below else above)
    else if lowFits then some below
    else if highFits then some above
    else none
  pick.map fun d => ⟨d, exponent⟩

/-- The decimal exponent of the leading digit, up to one. -/
def Rounding.leading (r : Rounding) : Int :=
  let scaleUp := r.m <<< r.q.toNat
  let scaleDown := 1 <<< (-r.q).toNat
  if scaleDown ≤ scaleUp then (digitCount (scaleUp / scaleDown) : Int) - 1
  else -(digitCount (scaleDown / scaleUp) : Int)

/-- The digits without zeros at their end. -/
def Scaled.stripZeros : Nat → Scaled → Scaled
  | 0, s => s
  | n + 1, s =>
    if s.digits % 10 = 0 && 0 < s.digits then Scaled.stripZeros n ⟨s.digits / 10, s.exponent + 1⟩ else s

/-- The shortest decimal for a positive finite double. -/
def shortest (bits : UInt64) : Scaled :=
  let r := Rounding.ofBits bits
  let found := (List.range 19).findSome? fun (n : Nat) => r.onGrid? (r.leading + 1 - n)
  (found.getD ⟨r.m, r.q⟩).stripZeros 20

end StoryPress.Decimal
