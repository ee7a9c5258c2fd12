/-
Module: ElmClient.Number.Shortest
Purpose: The fewest decimal digits that read back as a given double, and the two ways in which
  this program lays such digits out.
Main exports: Binary64.shortest, FloatStyle, FloatStyle.json, FloatStyle.value, FloatStyle.text
-/
import ElmClient.Number.Binary64

namespace ElmClient

namespace Binary64

/-- A decimal number: the integer `digits`, times ten to the power `scale`. -/
structure Decimal where
  digits : Nat
  scale : Int
deriving DecidableEq, Repr

/-- Both ends of the interval of the numbers that round to a place, and the value there, in half
units. The ends lie midway to the neighbouring places. -/
def halfUnits (place : Nat) : Nat × Nat × Nat :=
  (unitsAt (place - 1) + unitsAt place, 2 * unitsAt place, unitsAt place + unitsAt (place + 1))

/-- The exponent of the leading decimal digit of a positive number of units. -/
def leadingExponent (units : Nat) : Int :=
  ((Nat.toDigits 10 (units * Nat.pow 10 400 / unitsPerOne)).length : Int) - 401

/-- The point of the decimal grid of step ten to the power `scale` that is nearest to the value at
a place, if a point of that grid rounds to this place at all. The ends of the interval count when
the place is even; of two points equally near, `tieUp` takes the upper one, and else the even one
is taken. -/
def nearestOnGrid (place : Nat) (scale : Int) (tieUp : Bool) : Option Nat :=
  let (low, value, high) := halfUnits place
  let finer := Nat.pow 10 (-scale).toNat
  let step := Nat.pow 10 scale.toNat * (2 * unitsPerOne)
  let within (point : Nat) : Bool :=
    if place % 2 == 0 then low * finer ≤ point * step && point * step ≤ high * finer
    else low * finer < point * step && point * step < high * finer
  let below := value * finer / step
  let above := below + 1
  match within below, within above with
  | false, false => none
  | true, false => some below
  | false, true => some above
  | true, true =>
      let toBelow := value * finer - below * step
      let toAbove := above * step - value * finer
      if toBelow < toAbove then some below
      else if toAbove < toBelow then some above
      else if tieUp then some above
      else some (below + below % 2)

/-- Tries the grids that leave the digit counts from `count` on. -/
def shortestFrom (place : Nat) (leading : Int) (tieUp : Bool) : (tries count : Nat) → Decimal
  | 0, _ => ⟨0, 0⟩
  | tries + 1, count =>
      let scale := leading + 1 - count
      match nearestOnGrid place scale tieUp with
      | some point => ⟨point, scale⟩
      | none => shortestFrom place leading tieUp tries (count + 1)

/-- The decimal number of the fewest digits that rounds to a finite, positive value; of those, the
nearest one. Seventeen digits always do. -/
def shortest (x : Binary64) (tieUp : Bool) : Decimal :=
  shortestFrom x.place (leadingExponent x.units) tieUp 17 1

end Binary64

/-- How a double is laid out: the least exponent of a leading digit that is written positionally,
whether a positive exponent carries a sign, and which of two nearest decimals is taken. -/
structure FloatStyle where
  leastPositional : Int
  plusSign : Bool
  tieUp : Bool
deriving Repr

namespace FloatStyle

/-- In JSON and GraphQL text, 0.00001 is positional and a positive exponent has its sign. -/
def json : FloatStyle := ⟨-5, true, false⟩

/-- In a displayed value, 0.0001 is positional and only a negative exponent has a sign. -/
def value : FloatStyle := ⟨-4, false, true⟩

/-- Drops the zeros at the end of a list of digits. -/
def dropTrailingZeros (digits : List Char) : List Char :=
  (digits.reverse.dropWhile (· == '0')).reverse

/-- Digits whose first one has the given exponent, with at least one decimal. -/
def positional (digits : List Char) (leading : Int) : List Char :=
  if leading < 0 then
    '0' :: '.' :: (List.replicate ((-leading).toNat - 1) '0' ++ digits)
  else
    let whole := leading.toNat + 1
    if digits.length ≤ whole then
      digits ++ List.replicate (whole - digits.length) '0' ++ ['.', '0']
    else digits.take whole ++ '.' :: digits.drop whole

/-- Digits whose first one stands alone before the point. -/
def scientific (style : FloatStyle) (digits : List Char) (leading : Int) : List Char :=
  let mantissa :=
    match digits with
    | first :: second :: rest => first :: '.' :: second :: rest
    | _ => digits
  let sign := if leading < 0 then ['-'] else if style.plusSign then ['+'] else []
  mantissa ++ 'e' :: (sign ++ Nat.toDigits 10 leading.natAbs)

/-- The text of a positive, finite double. Numbers from ten to the power 16 on are never
positional. -/
def positiveText (style : FloatStyle) (x : Binary64) : List Char :=
  let decimal := x.shortest style.tieUp
  let all := Nat.toDigits 10 decimal.digits
  let leading := decimal.scale + all.length - 1
  let digits := dropTrailingZeros all
  if style.leastPositional ≤ leading && leading < 16 then positional digits leading
  else scientific style digits leading

/-- The text of a double. -/
def text (style : FloatStyle) (x : Binary64) : String :=
  if x.isNaN then "NaN"
  else
    let magnitude :=
      if x.isInfinite then ['i', 'n', 'f']
      else if x.place == 0 then ['0', '.', '0']
      else positiveText style x
    String.ofList (if x.negative then '-' :: magnitude else magnitude)

end FloatStyle

end ElmClient
