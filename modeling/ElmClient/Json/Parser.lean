/-
Module: ElmClient.Json.Parser
Purpose: Reading JSON text. The nesting of arrays and objects is bounded, a string holds no lone
  surrogate and no raw control character, and a number must fit into a double.
Main exports: Json.parse?, Json.parseFirst?
-/
import ElmClient.Json.Basic

namespace ElmClient.Json

/-- The blanks between the tokens of JSON. -/
def isSpace (c : Char) : Bool :=
  c == ' ' || c == '\t' || c == '\n' || c == '\r'

/-- Drops the blanks at the start. -/
def skipSpace (text : List Char) : List Char := text.dropWhile isSpace

/-- The value of a hexadecimal digit. -/
def hexValue? (c : Char) : Option Nat :=
  if c.isDigit then some (c.toNat - '0'.toNat)
  else if 'a' ≤ c && c ≤ 'f' then some (c.toNat - 'a'.toNat + 10)
  else if 'A' ≤ c && c ≤ 'F' then some (c.toNat - 'A'.toNat + 10)
  else none

/-- The value of four hexadecimal digits. -/
def hexValue4? (a b c d : Char) : Option Nat := do
  let a ← hexValue? a
  let b ← hexValue? b
  let c ← hexValue? c
  let d ← hexValue? d
  pure (((a * 16 + b) * 16 + c) * 16 + d)

/-- The character that one letter after a backslash stands for. -/
def simpleEscape? : Char → Option Char
  | '"' => some '"'
  | '\\' => some '\\'
  | '/' => some '/'
  | 'b' => some '\x08'
  | 'f' => some '\x0c'
  | 'n' => some '\n'
  | 'r' => some '\r'
  | 't' => some '\t'
  | _ => none

/-- Whether a code unit is the first half of a surrogate pair. -/
def isLeadSurrogate (n : Nat) : Bool := 0xD800 ≤ n && n ≤ 0xDBFF

/-- Whether a code unit is the second half of a surrogate pair. -/
def isTrailSurrogate (n : Nat) : Bool := 0xDC00 ≤ n && n ≤ 0xDFFF

/-- The character of a surrogate pair. -/
def joinSurrogates (lead trail : Nat) : Char :=
  Char.ofNat (0x10000 + (lead - 0xD800) * 0x400 + (trail - 0xDC00))

/-- Reads the rest of a string up to the closing quote. -/
def scanString : List Char → Option (List Char × List Char)
  | [] => none
  | '"' :: rest => some ([], rest)
  | '\\' :: 'u' :: a :: b :: c :: d :: rest =>
      match hexValue4? a b c d with
      | none => none
      | some n =>
          if isLeadSurrogate n then
            match rest with
            | '\\' :: 'u' :: e :: f :: g :: h :: rest =>
                match hexValue4? e f g h with
                | none => none
                | some trail =>
                    if isTrailSurrogate trail then
                      (scanString rest).map fun (chars, rest) =>
                        (joinSurrogates n trail :: chars, rest)
                    else none
            | _ => none
          else if isTrailSurrogate n then none
          else (scanString rest).map fun (chars, rest) => (Char.ofNat n :: chars, rest)
  | '\\' :: e :: rest =>
      match simpleEscape? e with
      | none => none
      | some c => (scanString rest).map fun (chars, rest) => (c :: chars, rest)
  | c :: rest =>
      if c.toNat < 0x20 || c == '\\' then none
      else (scanString rest).map fun (chars, rest) => (c :: chars, rest)

/-- Whether a number literal may end where it does. A literal that could only go on in a wrong way
is refused, whatever comes later. -/
def endsWell (literal : NumberLiteral) : List Char → Bool
  | [] => true
  | c :: _ =>
      if literal.exponent.isSome then true
      else if c == 'e' || c == 'E' then false
      else if literal.fraction.isSome then true
      else c != '.' && !c.isDigit

/-- Reads a number. -/
def scanNumber (text : List Char) : Option (Json × List Char) :=
  match NumberLiteral.scan text with
  | none => none
  | some (literal, rest) =>
      if endsWell literal rest then literal.value?.map fun n => (.number n, rest) else none

/-- Reads a value that is neither an array nor an object. -/
def scanScalar : List Char → Option (Json × List Char)
  | 'n' :: 'u' :: 'l' :: 'l' :: rest => some (.null, rest)
  | 't' :: 'r' :: 'u' :: 'e' :: rest => some (.bool true, rest)
  | 'f' :: 'a' :: 'l' :: 's' :: 'e' :: rest => some (.bool false, rest)
  | '"' :: rest => (scanString rest).map fun (chars, rest) => (.string (String.ofList chars), rest)
  | text => scanNumber text

/-- A reader takes something from the start of a text and returns the rest. -/
abbrev Scanner (α : Type) := List Char → Option (α × List Char)

/-- Reads items up to a closing character, with commas between them; the first item stands at the
start. The count bounds the number of items. -/
def scanItems {α : Type} (item : Scanner α) (close : Char) : Nat → Scanner (List α)
  | 0, _ => none
  | count + 1, text =>
      match item (skipSpace text) with
      | none => none
      | some (first, rest) =>
          match skipSpace rest with
          | c :: rest =>
              if c == close then some ([first], rest)
              else if c == ',' then
                (scanItems item close count rest).map fun (items, rest) => (first :: items, rest)
              else none
          | [] => none

/-- Reads what follows an opening bracket. -/
def scanClosed {α : Type} (item : Scanner α) (close : Char) (text : List Char) :
    Option (List α × List Char) :=
  match skipSpace text with
  | c :: rest =>
      if c == close then some ([], rest) else scanItems item close (c :: rest).length (c :: rest)
  | [] => none

/-- Reads a key, a colon and a value, where the key decides how the value is read. The key is read
after its opening quote. -/
def scanEntry {κ α : Type} (key : Scanner κ) (value : κ → Scanner α) : Scanner (κ × α)
  | '"' :: rest =>
      match key rest with
      | none => none
      | some (k, rest) =>
          match skipSpace rest with
          | ':' :: rest => (value k (skipSpace rest)).map fun (v, rest) => ((k, v), rest)
          | _ => none
  | _ => none

/-- Reads the rest of a key. -/
def scanKey : Scanner String := fun text =>
  (scanString text).map fun (chars, rest) => (String.ofList chars, rest)

/-- Reads a value in which arrays and objects are nested at most as deep as given. -/
def scanValue : Nat → Scanner Json
  | 0, text =>
      match text with
      | '[' :: _ => none
      | '{' :: _ => none
      | _ => scanScalar text
  | depth + 1, text =>
      match text with
      | '[' :: rest =>
          (scanClosed (scanValue depth) ']' rest).map fun (items, rest) => (.array items, rest)
      | '{' :: rest =>
          let entry := scanEntry scanKey fun _ => scanValue depth
          (scanClosed entry '}' rest).map fun (entries, rest) =>
            (.object (Dictionary.ofList entries), rest)
      | _ => scanScalar text

/-- How deep arrays and objects may be nested in a text. -/
def depthLimit : Nat := 127

/-- The first value of a text, whatever follows it. -/
def parseFirst? (text : String) : Option Json :=
  (scanValue depthLimit (skipSpace text.toList)).map Prod.fst

/-- The value of a text that holds nothing else but blanks. -/
def parse? (text : String) : Option Json :=
  match scanValue depthLimit (skipSpace text.toList) with
  | none => none
  | some (value, rest) => if (skipSpace rest).isEmpty then some value else none

end ElmClient.Json
