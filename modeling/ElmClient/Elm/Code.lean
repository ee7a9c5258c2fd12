/-
Module: ElmClient.Elm.Code
Purpose: Pieces of Elm code in which string literals and lambdas are kept apart from the text
  around them.
Main exports: Code, Code.text, stringLiteral, longStringLiteral
-/

namespace ElmClient.Elm

/-- A piece of code. The body of a lambda starts with the blank after its arrow. -/
inductive Code where
  | plain (text : String)
  | literal (value : String)
  | longLiteral (value : String)
  | lambda (parameters : List String) (body : Code)
  | append (first second : Code)
deriving DecidableEq, Repr, Inhabited

instance : Append Code := ⟨.append⟩

instance : Coe String Code := ⟨.plain⟩

/-- One character of a string literal. -/
def escapeChar (c : Char) : List Char :=
  if c == '"' then ['\\', '"']
  else if c == '\\' then ['\\', '\\']
  else if c == '\n' then ['\\', 'n']
  else if c == '\t' then ['\\', 't']
  else [c]

/-- A string literal. -/
def stringLiteral (value : String) : String :=
  String.ofList ('"' :: (value.toList.flatMap escapeChar ++ ['"']))

/-- One character of a string literal in three quotes, where only the backslash is special. -/
def escapeLongChar (c : Char) : List Char :=
  if c == '\\' then ['\\', '\\'] else [c]

/-- A string literal in three quotes. -/
def longStringLiteral (value : String) : String :=
  "\"\"\"" ++ String.ofList (value.toList.flatMap escapeLongChar) ++ "\"\"\""

namespace Code

/-- The text of a piece of code. -/
def text : Code → String
  | .plain text => text
  | .literal value => stringLiteral value
  | .longLiteral value => longStringLiteral value
  | .lambda parameters body => "(\\" ++ " ".intercalate parameters ++ " ->" ++ body.text ++ ")"
  | .append first second => first.text ++ second.text

/-- Pieces one after another. -/
def concat (pieces : List Code) : Code := pieces.foldr .append (.plain "")

/-- Pieces with another piece between them. -/
def separated (separator : Code) : List Code → Code
  | [] => .plain ""
  | [piece] => piece
  | piece :: rest => piece ++ (separator ++ separated separator rest)

@[simp] theorem text_append (first second : Code) :
    (first ++ second).text = first.text ++ second.text := rfl

/-- The text of pieces one after another. -/
theorem text_concat (pieces : List Code) : (concat pieces).text = String.join (pieces.map text) := by
  induction pieces with
  | nil => rfl
  | cons piece rest ih =>
      rw [List.map_cons, String.join_cons, ← ih]
      rfl

end Code

end ElmClient.Elm
