import ProcLang.Number.Binary32

/-!
# Shortest decimal text

The decimal text of a `Binary32` has the fewest digits that read back as the same number. Among
equally short ones it is the nearest, and the larger one when two are equally near. The text is
positional at every size: no exponent is written, and a whole number has no point.

Comparisons are made on natural numbers. A magnitude is taken in quarter units, that is in units
of `2 ^ -151`, so that the midpoints to its two neighbours are whole.
-/

namespace ProcLang.Binary32

/-- The decimal numbers that round to a magnitude, in quarter units: from `low` to `high`, with
both ends included exactly when the significand is even. -/
structure Interval where
  low : Nat
  value : Nat
  high : Nat
  closed : Bool

/-- The interval of a finite magnitude other than zero. Where the scale changes, the neighbour
below is only half as far away. -/
def interval (magnitude : Nat) : Interval :=
  let m := significand magnitude
  let unit := 1 <<< scale magnitude
  let below := if m = 0x800000 ∧ 0 < scale magnitude then 1 else 2
  { low := (4 * m - below) * unit
    value := 4 * m * unit
    high := (4 * m + 2) * unit
    closed := m % 2 = 0 }

/-- A decimal number `digits * 10 ^ exponent`. -/
structure Decimal where
  digits : Nat
  exponent : Int

namespace Interval

/-- Whether `digits * step / parts` quarter units lie in the interval. -/
def holds (i : Interval) (digits step parts : Nat) : Bool :=
  let point := digits * step
  if i.closed then
    decide (i.low * parts ≤ point ∧ point ≤ i.high * parts)
  else
    decide (i.low * parts < point ∧ point < i.high * parts)

/-- The multiple of `10 ^ exponent` that lies in the interval and is nearest to its value, if
either neighbour of the value on that grid lies in it. -/
def onGrid? (i : Interval) (exponent : Int) : Option Nat :=
  let step := Nat.pow 10 exponent.toNat <<< 151
  let parts := Nat.pow 10 (-exponent).toNat
  let target := i.value * parts
  let floor := target / step
  let rest := target - floor * step
  match i.holds floor step parts, i.holds (floor + 1) step parts with
  | true, true => some (if 2 * rest < step then floor else floor + 1)
  | true, false => some floor
  | false, true => some (floor + 1)
  | false, false => none

/-- Tries ever finer grids, starting with the given one. -/
def onFirstGrid (i : Interval) : (tries : Nat) → (exponent : Int) → Decimal
  | 0, exponent => ⟨0, exponent⟩
  | tries + 1, exponent =>
    match i.onGrid? exponent with
    | some digits => ⟨digits, exponent⟩
    | none => i.onFirstGrid tries (exponent - 1)

end Interval

/-- The shortest decimal of a finite magnitude other than zero. The grids from `10 ^ 38` down to
`10 ^ -53` are enough: the values lie below `10 ^ 39`, and nine digits always suffice. -/
def shortest (magnitude : Nat) : Decimal :=
  (interval magnitude).onFirstGrid 93 39

/-- Writes a decimal without an exponent. -/
def Decimal.positional (d : Decimal) : String :=
  let digits := Nat.toDigits 10 d.digits
  if 0 ≤ d.exponent then
    String.ofList (digits ++ List.replicate d.exponent.toNat '0')
  else
    let places := (-d.exponent).toNat
    let padded := List.replicate (places + 1 - digits.length) '0' ++ digits
    let whole := padded.length - places
    String.ofList (padded.take whole ++ ['.'] ++ padded.drop whole)

/-- The text of a number. -/
def render (x : Binary32) : String :=
  let sign := if x.negative then "-" else ""
  if infinity ≤ x.magnitude then sign ++ "inf"
  else if x.magnitude = 0 then sign ++ "0"
  else sign ++ (shortest x.magnitude).positional

end ProcLang.Binary32
