/-
Module: ElmClient.GraphQL.Value
Purpose: The values of a GraphQL text and their printed form.
Main exports: Value, Value.text
-/
import ElmClient.Dictionary
import ElmClient.Number.Literal

namespace ElmClient.GraphQL

/-- A value of a GraphQL text. The keys of an object are distinct. -/
inductive Value where
  | null
  | boolean (b : Bool)
  | number (n : Number)
  | string (s : String)
  | enum (name : String)
  | variable (name : String)
  | list (items : List Value)
  | object (entries : List (String × Value))
deriving Repr, Inhabited

namespace Value

/-- Whether a character is a control character. -/
def isControl (c : Char) : Bool :=
  c.toNat < 0x20 || (0x7F ≤ c.toNat && c.toNat < 0xA0)

/-- A character inside a printed string. A control character without an escape of its own is
written by its decimal number, with four digits at least. -/
def escapeChar (c : Char) : List Char :=
  if c == '\r' then ['\\', 'r']
  else if c == '\n' then ['\\', 'n']
  else if c == '\t' then ['\\', 't']
  else if c == '"' then ['\\', '"']
  else if c == '\\' then ['\\', '\\']
  else if isControl c then
    let digits := Nat.toDigits 10 c.toNat
    '\\' :: 'u' :: (List.replicate (4 - digits.length) '0' ++ digits)
  else [c]

/-- A string in double quotes. -/
def stringText (s : String) : String :=
  String.ofList ('"' :: (s.toList.flatMap escapeChar ++ ['"']))

mutual

/-- A value as GraphQL writes it. -/
def text : Value → String
  | .null => "null"
  | .boolean true => "true"
  | .boolean false => "false"
  | .number n => n.text
  | .string s => stringText s
  | .enum name => name
  | .variable name => "$" ++ name
  | .list items => "[" ++ ", ".intercalate (itemTexts items) ++ "]"
  | .object entries => "\x7b" ++ ", ".intercalate (entryTexts entries) ++ "\x7d"
termination_by structural value => value

/-- The texts of the items of a list. -/
def itemTexts : List Value → List String
  | [] => []
  | item :: rest => text item :: itemTexts rest
termination_by structural items => items

/-- The texts of the entries of an object. -/
def entryTexts : List (String × Value) → List String
  | [] => []
  | (key, value) :: rest => (key ++ ": " ++ text value) :: entryTexts rest
termination_by structural entries => entries

end

end Value

end ElmClient.GraphQL
