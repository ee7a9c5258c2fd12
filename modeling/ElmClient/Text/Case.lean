/-
Module: ElmClient.Text.Case
Purpose: Upper and lower case for all of Unicode. A letter may become several, and a capital sigma
  that ends a word has a lower case of its own.
Main exports: upperChar, lowerChar, capitalize, decapitalize, lowercase
-/
import ElmClient.Text.CaseTable

namespace ElmClient.Text

/-- Whether a number lies in one of the closed ranges. -/
def inRanges (ranges : List (Nat × Nat)) (n : Nat) : Bool :=
  ranges.any fun range => range.1 ≤ n && n ≤ range.2

/-- The image of a code point under the run that holds it. -/
def mapByRuns (runs : List (Nat × Nat × Nat × Nat)) (n : Nat) : Option Nat :=
  match runs with
  | [] => none
  | (first, last, step, image) :: rest =>
      if first ≤ n && n ≤ last && (n - first) % step == 0 then some (image + (n - first))
      else mapByRuns rest n

/-- The letters that a character becomes, by a table of one-letter images and one of longer ones. -/
def mapCase (runs : List (Nat × Nat × Nat × Nat)) (expansions : List (Nat × List Nat))
    (c : Char) : List Char :=
  match mapByRuns runs c.toNat with
  | some n => [Char.ofNat n]
  | none =>
      match expansions.lookup c.toNat with
      | some ns => ns.map Char.ofNat
      | none => [c]

/-- The upper case of a character. -/
def upperChar (c : Char) : List Char :=
  if c.toNat < 0x80 then [c.toUpper] else mapCase upperRuns upperExpansions c

/-- The lower case of a character that stands alone. -/
def lowerChar (c : Char) : List Char :=
  if c.toNat < 0x80 then [c.toLower] else mapCase lowerRuns lowerExpansions c

/-- The text with its first character in upper case. -/
def capitalize (text : String) : String :=
  match text.toList with
  | [] => ""
  | c :: rest => String.ofList (upperChar c ++ rest)

/-- The text with its first character in lower case. -/
def decapitalize (text : String) : String :=
  match text.toList with
  | [] => ""
  | c :: rest => String.ofList (lowerChar c ++ rest)

/-- Whether the first character that counts for case is a cased letter. -/
def meetsCased (text : List Char) : Bool :=
  match text.dropWhile fun c => inRanges caseIgnorableRanges c.toNat with
  | [] => false
  | c :: _ => inRanges casedRanges c.toNat

/-- Lower case of the rest of a text; `before` is what precedes it, nearest character first. A
capital sigma is final when a cased letter stands before it and none after it. -/
def lowerRest (before : List Char) : List Char → List Char
  | [] => []
  | c :: rest =>
      let image :=
        if c == 'Σ' then [if meetsCased before && !meetsCased rest then 'ς' else 'σ']
        else lowerChar c
      image ++ lowerRest (c :: before) rest

/-- The text in lower case. -/
def lowercase (text : String) : String :=
  String.ofList (lowerRest [] text.toList)

end ElmClient.Text
