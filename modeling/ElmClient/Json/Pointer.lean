/-
Module: ElmClient.Json.Pointer
Purpose: JSON pointers (RFC 6901).
Main exports: Json.pointer?
-/
import ElmClient.Json.Basic

namespace ElmClient.Json

/-- Splits at every occurrence of a character. -/
def splitAtChar (separator : Char) : List Char → List (List Char)
  | [] => [[]]
  | c :: rest =>
      let parts := splitAtChar separator rest
      if c == separator then [] :: parts
      else
        match parts with
        | part :: more => (c :: part) :: more
        | [] => [[c]]

/-- Resolves the two escapes of a reference token. -/
def unescapeToken : List Char → List Char
  | '~' :: '1' :: rest => '/' :: unescapeToken rest
  | '~' :: '0' :: rest => '~' :: unescapeToken rest
  | c :: rest => c :: unescapeToken rest
  | [] => []

/-- An array index: digits without a leading zero. -/
def arrayIndex? (token : List Char) : Option Nat :=
  match token with
  | ['0'] => some 0
  | '0' :: _ => none
  | [] => none
  | _ => if token.all Char.isDigit then some (digitsValue token) else none

/-- The member that a reference token selects. -/
def select? (value : Json) (token : List Char) : Option Json :=
  match value with
  | .object entries => entries.lookup (String.ofList token)
  | .array items => (arrayIndex? token).bind fun index => items[index]?
  | _ => none

/-- The value that a pointer selects. The empty pointer selects all; any other starts with a
slash. -/
def pointer? (pointer : String) (value : Json) : Option Json :=
  match pointer.toList with
  | [] => some value
  | '/' :: rest =>
      ((splitAtChar '/' rest).map unescapeToken).foldlM select? value
  | _ => none

end ElmClient.Json
