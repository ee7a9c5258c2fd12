/-
Module: ElmClient.Number.Binary64
Purpose: Double precision numbers as places on one exact scale, with correctly rounded
  multiplication and division in natural numbers.
Main exports: Binary64, Binary64.units, Binary64.ofRatio, Binary64.mul, Binary64.div,
  Binary64.toInt?
-/

namespace ElmClient

/-- A double precision number: its sign, and the place of its absolute value among the absolute
values in increasing order. Places below `Binary64.infinitePlace` are finite, that place is
infinity, and the places above it hold no number. -/
structure Binary64 where
  negative : Bool
  place : Nat
deriving DecidableEq, Repr, Inhabited

namespace Binary64

/-- The place of infinity. -/
def infinitePlace : Nat := 0x7FF * Nat.pow 2 52

/-- How many units make one. A unit is the least positive double, of which every finite double is
a multiple. -/
def unitsPerOne : Nat := Nat.pow 2 1074

/-- The units in the absolute value at a place. -/
def unitsAt (place : Nat) : Nat :=
  let exponent := place / Nat.pow 2 52
  let fraction := place % Nat.pow 2 52
  if exponent = 0 then fraction else (Nat.pow 2 52 + fraction) * Nat.pow 2 (exponent - 1)

/-- The units in the absolute value. -/
def units (x : Binary64) : Nat := unitsAt x.place

/-- The quotient rounded to the nearest natural number, a half to the even one. -/
def roundHalfEven (numerator denominator : Nat) : Nat :=
  let quotient := numerator / denominator
  let twice := 2 * (numerator % denominator)
  if twice < denominator then quotient
  else if denominator < twice then quotient + 1
  else quotient + quotient % 2

/-- The place nearest to a ratio of units, where a tie goes to the even place. With a shift by
`s` bits the 53 leading bits of the ratio remain, and they stand at the place `s * 2 ^ 52` higher;
a carry into the 54th bit is the first place of the next exponent. -/
def placeOfUnits (numerator denominator : Nat) : Nat :=
  let shift := Nat.log2 (numerator / denominator) - 52
  min (shift * Nat.pow 2 52 + roundHalfEven numerator (denominator * Nat.pow 2 shift))
    infinitePlace

/-- The double nearest to a ratio. -/
def ofRatio (negative : Bool) (numerator denominator : Nat) : Binary64 :=
  ⟨negative, placeOfUnits (numerator * unitsPerOne) denominator⟩

/-- The double nearest to a natural number. -/
def ofNat (n : Nat) : Binary64 := ofRatio false n 1

/-- The double nearest to an integer. -/
def ofInt (n : Int) : Binary64 := ofRatio (decide (n < 0)) n.natAbs 1

/-- The double nearest to a power of ten. -/
def powerOfTen (exponent : Nat) : Binary64 := ofNat (Nat.pow 10 exponent)

/-- Whether the number is infinite. -/
def isInfinite (x : Binary64) : Bool := x.place == infinitePlace

/-- Whether there is no number at the place. -/
def isNaN (x : Binary64) : Bool := infinitePlace < x.place

/-- Whether the number is finite. -/
def isFinite (x : Binary64) : Bool := x.place < infinitePlace

/-- Whether the number is at least zero; both zeros are. -/
def isNonnegative (x : Binary64) : Bool :=
  !x.isNaN && (!x.negative || x.place == 0)

/-- The value that is no number. -/
def nan : Binary64 := ⟨false, infinitePlace + Nat.pow 2 51⟩

/-- The product of two finite numbers, rounded once. -/
def mul (x y : Binary64) : Binary64 :=
  ⟨x.negative != y.negative, placeOfUnits (x.units * y.units) unitsPerOne⟩

/-- The quotient of two finite numbers, rounded once; the divisor is not zero. -/
def div (x y : Binary64) : Binary64 :=
  ⟨x.negative != y.negative, placeOfUnits (x.units * unitsPerOne) y.units⟩

/-- The value as an integer, when it is one. -/
def toInt? (x : Binary64) : Option Int :=
  if x.isFinite && x.units % unitsPerOne == 0 then
    let n : Int := x.units / unitsPerOne
    some (if x.negative then -n else n)
  else none

end Binary64

end ElmClient
