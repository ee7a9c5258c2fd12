/-
Module: ElmClient.Number.Literal
Purpose: Number literals as JSON and GraphQL write them: their parts, and the number they stand
  for. A second reader takes the text of a double, correctly rounded.
Main exports: Number, NumberLiteral, NumberLiteral.scan, NumberLiteral.value?, Binary64.parse?
-/
import ElmClient.Number.Shortest

namespace ElmClient

/-- A number of a JSON or GraphQL text: an integer of 64 bits, signed or unsigned, or a finite
double. -/
inductive Number where
  | integer (n : Int)
  | float (x : Binary64)
deriving DecidableEq, Repr, Inhabited

namespace Number

/-- The number nearest to it among the doubles. -/
def toBinary64 : Number → Binary64
  | .integer n => Binary64.ofInt n
  | .float x => x

/-- The text of a number. -/
def text : Number → String
  | .integer n => toString n
  | .float x => FloatStyle.json.text x

end Number

/-- The value of a decimal digit. -/
def digitValue (c : Char) : Nat := c.toNat - '0'.toNat

/-- The value of a row of decimal digits. -/
def digitsValue (digits : List Char) : Nat :=
  digits.foldl (fun n c => 10 * n + digitValue c) 0

/-- The parts of a number literal; `fraction` and `exponent` are absent or have digits. -/
structure NumberLiteral where
  negative : Bool
  whole : List Char
  fraction : Option (List Char)
  exponent : Option Int
deriving DecidableEq, Repr

namespace NumberLiteral

/-- Splits off the leading decimal digits. -/
def spanDigits (text : List Char) : List Char × List Char :=
  (text.takeWhile Char.isDigit, text.dropWhile Char.isDigit)

/-- Reads a point and the digits after it. -/
def scanFraction : List Char → Option (List Char × List Char)
  | '.' :: rest =>
      match spanDigits rest with
      | ([], _) => none
      | (digits, rest) => some (digits, rest)
  | _ => none

/-- Reads an optional sign; the result says whether it was a minus. -/
def scanSign : List Char → Bool × List Char
  | '-' :: rest => (true, rest)
  | '+' :: rest => (false, rest)
  | text => (false, text)

/-- Reads the exponent mark, a sign and digits. -/
def scanExponent : List Char → Option (Int × List Char)
  | c :: rest =>
      if c == 'e' || c == 'E' then
        let (negative, rest) := scanSign rest
        match spanDigits rest with
        | ([], _) => none
        | (digits, rest) =>
            let n : Int := digitsValue digits
            some (if negative then -n else n, rest)
      else none
  | [] => none

/-- Reads the digits before the point: a zero that stands alone, or digits that start with
another one. -/
def scanWhole (text : List Char) : Option (List Char × List Char) :=
  match text with
  | '0' :: rest => some (['0'], rest)
  | _ =>
      match spanDigits text with
      | ([], _) => none
      | (digits, rest) => some (digits, rest)

/-- The longest number literal at the start of a text, and the rest after it. -/
def scan (text : List Char) : Option (NumberLiteral × List Char) :=
  let (negative, unsigned) :=
    match text with
    | '-' :: rest => (true, rest)
    | _ => (false, text)
  match scanWhole unsigned with
  | none => none
  | some (whole, rest) =>
      let (fraction, rest) :=
        match scanFraction rest with
        | some (digits, rest) => (some digits, rest)
        | none => (none, rest)
      let (exponent, rest) :=
        match scanExponent rest with
        | some (n, rest) => (some n, rest)
        | none => (none, rest)
      some (⟨negative, whole, fraction, exponent⟩, rest)

/-- Takes digits into a significand as long as it fits into 64 bits. The result holds the
significand and the number of digits that were left out. -/
def absorb (significand : Nat) : List Char → Nat × Nat
  | [] => (significand, 0)
  | c :: rest =>
      let next := 10 * significand + digitValue c
      if next < Nat.pow 2 64 then absorb next rest else (significand, rest.length + 1)

/-- A significand of at most 64 bits times a power of ten, where each single step is rounded: the
significand, the power, and the product or quotient. Absent if the result is too large. -/
def scaled (significand : Nat) (exponent : Int) : Option Binary64 :=
  let start := Binary64.ofNat significand
  if significand == 0 then some start
  else if 0 ≤ exponent then
    if 308 < exponent then none
    else
      let product := start.mul (Binary64.powerOfTen exponent.toNat)
      if product.isFinite then some product else none
  else
    let places := exponent.natAbs
    if places ≤ 308 then some (start.div (Binary64.powerOfTen places))
    else if places ≤ 616 then
      let first := start.div (Binary64.powerOfTen 308)
      some (first.div (Binary64.powerOfTen (places - 308)))
    else some ⟨false, 0⟩

/-- The number of a literal, or nothing if it is too large. A literal without point and exponent is
an integer if it fits into 64 bits, but a negative zero is a double. Digits that do not fit into
the significand count as zeros. -/
def value? (literal : NumberLiteral) : Option Number :=
  let (whole, left) := absorb 0 literal.whole
  let signed (x : Binary64) : Number := .float ⟨literal.negative, x.place⟩
  match literal.fraction, literal.exponent with
  | none, none =>
      if left == 0 && !literal.negative then some (.integer whole)
      else if left == 0 && 0 < whole && whole ≤ Nat.pow 2 63 then some (.integer (-whole))
      else (scaled whole left).map signed
  | fraction, exponent =>
      let digits := fraction.getD []
      let (significand, unread) := absorb whole digits
      let shift : Int := left - (digits.length - unread : Nat)
      (scaled significand (shift + exponent.getD 0)).map signed

end NumberLiteral

namespace Binary64

/-- The double nearest to digits times a power of ten. Exponents far outside the range of doubles
decide the result without any arithmetic. -/
def ofDecimal (negative : Bool) (digits : List Char) (exponent : Int) : Binary64 :=
  let significant := digits.dropWhile (· == '0')
  let reach := exponent + significant.length
  if significant.isEmpty || reach < -400 then ⟨negative, 0⟩
  else if 400 < reach then ⟨negative, infinitePlace⟩
  else
    ofRatio negative (digitsValue significant * Nat.pow 10 exponent.toNat)
      (Nat.pow 10 (-exponent).toNat)

/-- Reads the text of a double: an optional sign, then `inf`, `infinity` or `nan` in any case, or
digits with an optional point somewhere and an optional exponent. -/
def parse? (text : String) : Option Binary64 :=
  let (negative, body) := NumberLiteral.scanSign text.toList
  let word := body.map Char.toLower
  if word == "inf".toList || word == "infinity".toList then some ⟨negative, infinitePlace⟩
  else if word == "nan".toList then some ⟨negative, nan.place⟩
  else
    let (whole, rest) := NumberLiteral.spanDigits body
    let (fraction, rest) :=
      match rest with
      | '.' :: rest => NumberLiteral.spanDigits rest
      | _ => ([], rest)
    if whole.isEmpty && fraction.isEmpty then none
    else
      let digits := whole ++ fraction
      let shift : Int := fraction.length
      if rest.isEmpty then some (ofDecimal negative digits (-shift))
      else
        match NumberLiteral.scanExponent rest with
        | some (n, []) => some (ofDecimal negative digits (n - shift))
        | _ => none

end Binary64

end ElmClient
