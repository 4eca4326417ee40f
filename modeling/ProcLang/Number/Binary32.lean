/-!
# Binary floating point with 32 bits

A `Binary32` is a sign and a magnitude. The magnitude is the number that the exponent and fraction
fields make together; it grows with the value, and from `infinity` on there are no more finite
values. A finite magnitude stands for `significand * 2 ^ (scale - 149)`.

`magnitudeOf` rounds a fraction of natural numbers to the nearest magnitude, and to an even
significand when two are equally near. Decimal literals and integers go through it, so each is
rounded once.
-/

namespace ProcLang

/-- The nearest natural number to a fraction, the even one when two are equally near. -/
def roundHalfEven (num den : Nat) : Nat :=
  let quotient := num / den
  let twice := 2 * (num % den)
  if den < twice ∨ (twice = den ∧ quotient % 2 = 1) then quotient + 1 else quotient

/-- A 32-bit floating point number that is not a NaN. -/
structure Binary32 where
  negative : Bool
  magnitude : Nat
deriving DecidableEq, Inhabited

namespace Binary32

/-- The magnitude of the two infinities. -/
def infinity : Nat := 0x7F800000

/-- The power of two, counted from the smallest, that a finite magnitude is a multiple of. -/
def scale (magnitude : Nat) : Nat :=
  magnitude / 0x800000 - 1

/-- How often a finite magnitude holds the power of two given by its scale. -/
def significand (magnitude : Nat) : Nat :=
  magnitude - scale magnitude * 0x800000

/-- The magnitude nearest to a fraction. Fractions too large for a finite one give `infinity`. -/
def magnitudeOf (num den : Nat) : Nat :=
  let units := num <<< 149
  let scale := (units / den).log2 - 23
  min (scale * 0x800000 + roundHalfEven units (den <<< scale)) infinity

/-- The number with the given decimal digits, the last `places` of which are behind the point. -/
def ofDecimal (digits places : Nat) : Binary32 :=
  ⟨false, magnitudeOf digits (Nat.pow 10 places)⟩

/-- The nearest number to an integer. -/
def ofInt (n : Int) : Binary32 :=
  ⟨decide (n < 0), magnitudeOf n.natAbs 1⟩

/-- The number with the opposite sign; zero has both signs. -/
def neg (x : Binary32) : Binary32 :=
  { x with negative := !x.negative }

/-- The 32 bits of the number: the sign bit above the magnitude. -/
def toBits (x : Binary32) : Nat :=
  (if x.negative then 0x80000000 else 0) + x.magnitude

/-- The number with the given 32 bits. -/
def ofBits (bits : Nat) : Binary32 :=
  ⟨decide (0x80000000 ≤ bits), bits % 0x80000000⟩

/-- The 63 bits below the sign bit of the equal 64-bit floating point number. -/
def wideMagnitude (magnitude : Nat) : Nat :=
  if infinity ≤ magnitude then
    0x7FF <<< 52
  else if magnitude = 0 then
    0
  else
    let m := significand magnitude
    let top := m.log2
    ((top + scale magnitude + 874) <<< 52) + ((m - (1 <<< top)) <<< (52 - top))

/-- The bits of the equal 64-bit floating point number. -/
def toBits64 (x : Binary32) : Nat :=
  (if x.negative then 0x8000000000000000 else 0) + wideMagnitude x.magnitude

end Binary32

end ProcLang
