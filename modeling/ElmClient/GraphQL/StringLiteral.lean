/-
Module: ElmClient.GraphQL.StringLiteral
Purpose: String literals of GraphQL: quoted ones with escapes, and blocks whose common indentation
  is removed.
Main exports: scanBlock, scanQuoted, blockValue
-/
import ElmClient.Json.Parser

namespace ElmClient.GraphQL.StringLiteral

/-- A literal that was read: the characters it was written with, its value, and the text after
it. -/
structure Scanned where
  taken : List Char
  value : List Char
  rest : List Char
deriving Repr

/-- Puts a character in front of a literal. -/
def Scanned.push (taken value : List Char) (scanned : Scanned) : Scanned :=
  { scanned with taken := taken ++ scanned.taken, value := value ++ scanned.value }

/-- Reads a quoted string after its opening quote. A line does not end inside, and an escape never
names half of a surrogate pair. -/
def scanQuoted : List Char → Option Scanned
  | [] => none
  | '"' :: rest => some ⟨['"'], [], rest⟩
  | '\\' :: 'u' :: a :: b :: c :: d :: rest =>
      match Json.hexValue4? a b c d with
      | none => none
      | some n =>
          if Json.isLeadSurrogate n || Json.isTrailSurrogate n then none
          else (scanQuoted rest).map (·.push ['\\', 'u', a, b, c, d] [Char.ofNat n])
  | '\\' :: e :: rest =>
      match Json.simpleEscape? e with
      | none => none
      | some c => (scanQuoted rest).map (·.push ['\\', e] [c])
  | c :: rest =>
      if c == '\\' || c == '\n' || c == '\r' then none
      else (scanQuoted rest).map (·.push [c] [c])

/-- Reads the raw text of a block after its opening quotes. Three quotes after a backslash do not
close it. -/
def scanBlock : List Char → Option Scanned
  | '"' :: '"' :: '"' :: rest => some ⟨['"', '"', '"'], [], rest⟩
  | '\\' :: '"' :: '"' :: '"' :: rest =>
      (scanBlock rest).map (·.push ['\\', '"', '"', '"'] ['\\', '"', '"', '"'])
  | c :: rest => (scanBlock rest).map (·.push [c] [c])
  | [] => none

/-- Splits into lines. A carriage return and the line feed after it end one line. -/
def splitLines : List Char → List (List Char)
  | [] => [[]]
  | '\r' :: '\n' :: rest => [] :: splitLines rest
  | c :: rest =>
      if c == '\r' || c == '\n' then [] :: splitLines rest
      else
        match splitLines rest with
        | line :: lines => (c :: line) :: lines
        | [] => [[c]]

/-- Whether a character only indents. -/
def indents (c : Char) : Bool := c == ' ' || c == '\t'

/-- The indentation of a line that has more than that. -/
def indentation? (line : List Char) : Option Nat :=
  let spaces := line.takeWhile indents
  if spaces.length < line.length then some spaces.length else none

/-- Whether a line has only indentation. -/
def isBare (line : List Char) : Bool := line.all indents

/-- The value of a block: the lines after the first lose their common indentation, and bare lines
at both ends are dropped. -/
def blockValue (raw : List Char) : List Char :=
  match splitLines raw with
  | [] => []
  | first :: others =>
      let common := ((others.filterMap indentation?).min?).getD 0
      let lines := first :: others.map fun line =>
        if common ≤ line.length then line.drop common else line
      let lines := (lines.dropWhile isBare).reverse.dropWhile isBare
      ['\n'].intercalate lines.reverse

end ElmClient.GraphQL.StringLiteral
