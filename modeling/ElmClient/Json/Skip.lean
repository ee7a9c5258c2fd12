/-
Module: ElmClient.Json.Skip
Purpose: Skipping JSON values. What is skipped follows the grammar, but it may be nested to any
  depth, its numbers may be of any size, and its escapes may stand for halves of characters.
Main exports: Json.skipValue
-/
import ElmClient.Json.Parser

namespace ElmClient.Json

/-- Skips the rest of a string up to the closing quote. An escape may stand for any code unit. -/
def skipString : Scanner Unit
  | [] => none
  | '"' :: rest => some ((), rest)
  | '\\' :: 'u' :: a :: b :: c :: d :: rest =>
      if (hexValue4? a b c d).isSome then skipString rest else none
  | '\\' :: e :: rest => if (simpleEscape? e).isSome then skipString rest else none
  | c :: rest => if c.toNat < 0x20 || c == '\\' then none else skipString rest

/-- Skips a number of any size. -/
def skipNumber : Scanner Unit := fun text =>
  match NumberLiteral.scan text with
  | some (literal, rest) => if endsWell literal rest then some ((), rest) else none
  | none => none

/-- Skips a value in which arrays and objects are nested at most as deep as given. -/
def skipValue : Nat → Scanner Unit
  | 0, _ => none
  | depth + 1, text =>
      match text with
      | 'n' :: 'u' :: 'l' :: 'l' :: rest => some ((), rest)
      | 't' :: 'r' :: 'u' :: 'e' :: rest => some ((), rest)
      | 'f' :: 'a' :: 'l' :: 's' :: 'e' :: rest => some ((), rest)
      | '"' :: rest => skipString rest
      | '[' :: rest =>
          (scanClosed (skipValue depth) ']' rest).map fun (_, rest) => ((), rest)
      | '{' :: rest =>
          (scanClosed (scanEntry skipString fun _ => skipValue depth) '}' rest).map
            fun (_, rest) => ((), rest)
      | _ => skipNumber text

end ElmClient.Json
