/-
Module: ElmClient.Json.Basic
Purpose: JSON values whose objects keep the order of their keys.
Main exports: Json, Json.lookup?, Json.depth, Json.text
-/
import ElmClient.Dictionary
import ElmClient.Number.Literal

namespace ElmClient

/-- A JSON value. The keys of an object are distinct and stand in the order of the text. -/
inductive Json where
  | null
  | bool (b : Bool)
  | number (n : Number)
  | string (s : String)
  | array (items : List Json)
  | object (entries : List (String × Json))
deriving BEq, Repr, Inhabited

namespace Json

/-- The value under a key of an object. -/
def lookup? (key : String) : Json → Option Json
  | .object entries => entries.lookup key
  | _ => none

mutual

/-- How deep arrays and objects are nested in a value. -/
def depth : Json → Nat
  | .array items => depthOfItems items + 1
  | .object entries => depthOfEntries entries + 1
  | _ => 0
termination_by structural value => value

/-- The greatest depth among the items of an array. -/
def depthOfItems : List Json → Nat
  | [] => 0
  | item :: rest => max (depth item) (depthOfItems rest)
termination_by structural items => items

/-- The greatest depth among the values of an object. -/
def depthOfEntries : List (String × Json) → Nat
  | [] => 0
  | (_, value) :: rest => max (depth value) (depthOfEntries rest)
termination_by structural entries => entries

end

/-- A character inside a JSON string. Beside the quote and the backslash only the controls below
the space are escaped. -/
def escapeChar (c : Char) : List Char :=
  if c == '"' then ['\\', '"']
  else if c == '\\' then ['\\', '\\']
  else if c == '\n' then ['\\', 'n']
  else if c == '\r' then ['\\', 'r']
  else if c == '\t' then ['\\', 't']
  else if c.toNat == 0x08 then ['\\', 'b']
  else if c.toNat == 0x0C then ['\\', 'f']
  else if c.toNat < 0x20 then
    ['\\', 'u', '0', '0', Nat.digitChar (c.toNat / 16), Nat.digitChar (c.toNat % 16)]
  else [c]

/-- A text as a JSON string. -/
def stringText (s : String) : String :=
  String.ofList ('"' :: (s.toList.flatMap escapeChar ++ ['"']))

mutual

/-- The text of a value, without any blanks. -/
def text : Json → String
  | .null => "null"
  | .bool true => "true"
  | .bool false => "false"
  | .number n => n.text
  | .string s => stringText s
  | .array items => "[" ++ ",".intercalate (itemTexts items) ++ "]"
  | .object entries => "\x7b" ++ ",".intercalate (entryTexts entries) ++ "\x7d"
termination_by structural value => value

/-- The texts of the items of an array. -/
def itemTexts : List Json → List String
  | [] => []
  | item :: rest => text item :: itemTexts rest
termination_by structural items => items

/-- The texts of the entries of an object. -/
def entryTexts : List (String × Json) → List String
  | [] => []
  | (key, value) :: rest => (stringText key ++ ":" ++ text value) :: entryTexts rest
termination_by structural entries => entries

end

end Json

end ElmClient
