/-
Module: ElmClient.Elm.Type
Purpose: The types of the generated Elm code.
Main exports: Elm.Scalar, Elm.Scalar.ofName, Elm.TypeExpr, Elm.TypeExpr.wrap
-/
import ElmClient.Layer

namespace ElmClient.Elm

open GraphQL

/-- The Elm types that scalars of a schema are read into. A time is kept in milliseconds. -/
inductive Scalar where
  | int
  | float
  | bool
  | string
  | posix
deriving DecidableEq, Repr, Inhabited

namespace Scalar

/-- The Elm type of a scalar of a schema. One that is not known is a string. -/
def ofName (name : String) : Scalar :=
  if name == "Int" then .int
  else if name == "Float" then .float
  else if name == "Boolean" then .bool
  else if name == "UnixTimestamp" then .posix
  else .string

/-- The name of the type in Elm. -/
def name : Scalar → String
  | .int => "Int"
  | .float => "Float"
  | .bool => "Bool"
  | .string => "String"
  | .posix => "Time.Posix"

end Scalar

/-- An Elm type. A record may leave room for further fields by a row variable; a union type is
applied to one type for each of its members; an extension applies the open alias of a fragment; and
any other type that the generated code only refers to is an application. -/
inductive TypeExpr where
  | scalar (scalar : Scalar)
  | enum (name : String)
  | named (name : String)
  | list (item : TypeExpr)
  | optional (inner : TypeExpr)
  | record (fields : List (String × TypeExpr)) (row : Option String)
  | union (name : String) (arguments : List (String × TypeExpr))
  | extend (fragment : String) (base : TypeExpr)
  | app (constructor : String) (arguments : List TypeExpr)
deriving BEq, Repr, Inhabited

namespace TypeExpr

/-- A record that has just the given fields. -/
def closed (fields : List (String × TypeExpr)) : TypeExpr := .record fields none

/-- Puts layers around a type. -/
def wrap (layers : List Layer) (inner : TypeExpr) : TypeExpr :=
  Layer.wrap .optional .list layers inner

end TypeExpr

end ElmClient.Elm
