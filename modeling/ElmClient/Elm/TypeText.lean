/-
Module: ElmClient.Elm.TypeText
Purpose: Elm types as text, with parentheses around the arguments that need them.
Main exports: TypeExpr.isAtomic, TypeExpr.text, TypeExpr.argumentText
-/
import ElmClient.Elm.Type
import ElmClient.Name

namespace ElmClient.Elm.TypeExpr

/-- Whether a type needs no parentheses as an argument. -/
def isAtomic : TypeExpr → Bool
  | .list _ | .optional _ | .union _ _ | .extend _ _ => false
  | .app _ arguments => arguments.isEmpty
  | .scalar _ | .enum _ | .named _ | .record _ _ => true

/-- The text of a type as an argument. -/
def asArgument (type : TypeExpr) (text : String) : String :=
  if type.isAtomic then text else "(" ++ text ++ ")"

/-- The text of a record. One that only has a row variable is that variable. -/
def recordText (row : Option String) (fields : List String) : String :=
  match row, fields with
  | some row, [] => row
  | none, [] => "\x7b\x7d"
  | some row, fields => "\x7b " ++ row ++ " | " ++ ", ".intercalate fields ++ " \x7d"
  | none, fields => "\x7b " ++ ", ".intercalate fields ++ " \x7d"

/-- A name applied to arguments. -/
def applied (name : String) (arguments : List String) : String :=
  " ".intercalate (name :: arguments)

mutual

/-- The text of a type. -/
def text : TypeExpr → String
  | .scalar s => s.name
  | .enum name => Text.capitalize name
  | .named name => name
  | .list item => "List " ++ item.asArgument item.text
  | .optional inner => "Maybe " ++ inner.asArgument inner.text
  | .record fields row => recordText row (fieldTexts fields)
  | .union name arguments => applied name (variantTexts arguments)
  | .extend fragment base => Name.openAlias fragment ++ " " ++ base.asArgument base.text
  | .app constructor arguments => applied constructor (argumentTexts arguments)
termination_by structural type => type

/-- The texts of fields. -/
def fieldTexts : List (String × TypeExpr) → List String
  | [] => []
  | (name, type) :: rest => (name ++ " : " ++ type.text) :: fieldTexts rest
termination_by structural fields => fields

/-- The texts of the arguments of a union. -/
def variantTexts : List (String × TypeExpr) → List String
  | [] => []
  | (_, type) :: rest => type.asArgument type.text :: variantTexts rest
termination_by structural variants => variants

/-- The texts of arguments. -/
def argumentTexts : List TypeExpr → List String
  | [] => []
  | type :: rest => type.asArgument type.text :: argumentTexts rest
termination_by structural types => types

end

/-- The text of a type as an argument. -/
def argumentText (type : TypeExpr) : String := type.asArgument type.text

end ElmClient.Elm.TypeExpr
