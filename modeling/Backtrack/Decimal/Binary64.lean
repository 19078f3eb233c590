/-!
# Numbers of double precision

A positive number of double precision is `mantissa * 2 ^ exponent` with a mantissa of at most 53 bits. Here a
fraction is rounded to the nearest such number, as are products and quotients of two such numbers, and such a number
is written with the fewest decimal digits that still round back to it. Everything is computed exactly, in natural
numbers.

A decimal is read in steps. Its digits, the power of ten and their product or quotient are each rounded, so the
result may be a neighbour of the nearest number.
-/

set_option autoImplicit false

namespace Backtrack

/-- A nonnegative number `mantissa * 2 ^ exponent`. -/
structure Binary64 where
  mantissa : Nat
  exponent : Int
  deriving DecidableEq, Repr

/-- A number `digits * 10 ^ exponent`. -/
structure Decimal where
  digits : Nat
  exponent : Int
  deriving DecidableEq, Repr

namespace Binary64

/-- The nearest natural number to a fraction. A tie goes to the even neighbour. -/
def roundDiv (num den : Nat) : Nat :=
  let quotient := num / den
  let twice := 2 * (num % den)
  if twice < den then quotient
  else if den < twice then quotient + 1
  else quotient + quotient % 2

/-- The fraction `num / den` times `base ^ exponent`, again as a fraction. -/
def scale (num den base : Nat) (exponent : Int) : Nat × Nat :=
  if 0 ≤ exponent then (num * Nat.pow base exponent.toNat, den)
  else (num, den * Nat.pow base (-exponent).toNat)

/-- The exponent of the largest power of `base` that is not above a positive fraction, found from a guess that
is at most one too large. -/
def floorLog (num den base : Nat) (guess : Int) : Int :=
  let (num, den) := scale num den base (-guess)
  if num < den then guess - 1 else guess

/-- The least mantissa of 53 bits. A smaller one comes only with the least exponent. -/
def leastNormal : Nat := 0x10000000000000

/-- The exponent below which the spacing of the numbers no longer shrinks. -/
def leastExponent : Int := -1074

/-- The nearest number to a fraction, however large. -/
def ofFraction (num den : Nat) : Binary64 :=
  if num = 0 then ⟨0, leastExponent⟩ else
  let top := floorLog num den 2 ((num.log2 : Int) - den.log2)
  let exponent := max (top - 52) leastExponent
  let (num, den) := scale num den 2 (-exponent)
  let mantissa := roundDiv num den
  if mantissa = 2 * leastNormal then ⟨leastNormal, exponent + 1⟩ else ⟨mantissa, exponent⟩

/-- Too large for a number of double precision. -/
def overflows (x : Binary64) : Bool := 971 < x.exponent

def isZero (x : Binary64) : Bool := x.mantissa = 0

def ofNat (n : Nat) : Binary64 := ofFraction n 1

/-- The nearest number to `num / den * 2 ^ exponent`. -/
def ofScaled (num den : Nat) (exponent : Int) : Binary64 :=
  let (num, den) := scale num den 2 exponent
  ofFraction num den

def mul (x y : Binary64) : Binary64 := ofScaled (x.mantissa * y.mantissa) 1 (x.exponent + y.exponent)

def div (x y : Binary64) : Binary64 := ofScaled x.mantissa y.mantissa (x.exponent - y.exponent)

/-- The greatest power of ten among the numbers of double precision. -/
def maxPowerOfTen : Nat := 308

def powerOfTen (n : Nat) : Binary64 := ofNat (Nat.pow 10 n)

/-- Divides by `10 ^ n`, by the greatest power of ten first where `n` is beyond it. -/
def divPowerOfTen (x : Binary64) (n : Nat) : Binary64 :=
  if _h : n ≤ maxPowerOfTen then x.div (powerOfTen n)
  else if x.isZero then x
  else divPowerOfTen (x.div (powerOfTen maxPowerOfTen)) (n - maxPowerOfTen)
termination_by n
decreasing_by simp only [maxPowerOfTen] at *; omega

/-- The number that a decimal is read as, or nothing where it grows too large on the way. -/
def ofDecimal? (d : Decimal) : Option Binary64 :=
  let x := ofNat d.digits
  if d.exponent < 0 then some (x.divPowerOfTen (-d.exponent).toNat)
  else if d.exponent ≤ maxPowerOfTen then
    let y := x.mul (powerOfTen d.exponent.toNat)
    if y.overflows then none else some y
  else if x.isZero then some x
  else none

/-- Three fractions of one denominator: the middle one is the number, and the others end the interval of what
rounds to it. -/
def interval (x : Binary64) : (Nat × Nat × Nat) × Nat :=
  let below := if x.mantissa = leastNormal && leastExponent < x.exponent then 1 else 2
  let unit := scale 1 1 2 (x.exponent - 2)
  (((4 * x.mantissa - below) * unit.1, 4 * x.mantissa * unit.1, (4 * x.mantissa + 2) * unit.1), unit.2)

/-- The multiple of `10 ^ exponent` that is nearest to the number among those that round to it. -/
def onGrid? (x : Binary64) (exponent : Int) : Option Decimal :=
  let ((low, middle, high), den) := x.interval
  let fits (n : Nat) : Bool :=
    let (num, den') := scale n 1 10 exponent
    if x.mantissa % 2 = 0 then low * den' ≤ num * den && num * den ≤ high * den'
    else low * den' < num * den && num * den < high * den'
  let (num, den') := scale middle den 10 (-exponent)
  let nearest := roundDiv num den'
  if fits nearest then some ⟨nearest, exponent⟩
  else if fits (nearest + 1) then some ⟨nearest + 1, exponent⟩
  else if fits (nearest - 1) then some ⟨nearest - 1, exponent⟩
  else none

/-- The fewest digits that round back to the number, of several the nearest. -/
def shortest (x : Binary64) : Decimal :=
  if x.mantissa = 0 then ⟨0, 0⟩ else
  let ((_, middle, _), den) := x.interval
  let guess : Int := (Nat.toDigits 10 middle).length - (Nat.toDigits 10 den).length
  let top := floorLog middle den 10 guess
  let grids := (List.range 18).map fun places : Nat => top - places + 1
  (grids.findSome? x.onGrid?).getD ⟨middle, 0⟩

end Binary64

end Backtrack
