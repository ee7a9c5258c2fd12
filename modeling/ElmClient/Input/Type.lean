/-
Module: ElmClient.Input.Type
Purpose: The Elm types of what a schema lets a client send. A type that contains itself is cut
  where it comes again, and is then declared by its own name.
Main exports: InputTypes, InputTypes.typeOf
-/
import ElmClient.Elm.Type
import ElmClient.Name
import ElmClient.Schema.Basic

namespace ElmClient

open GraphQL Elm

/-- The records that were written out so far, and the names at which a type was cut, in the order
in which that first happened. -/
structure InputTypes where
  records : List (String × TypeExpr) := []
  cycles : List String := []
deriving BEq, Repr, Inhabited

namespace InputTypes

/-- The record of a type that was written out. -/
def record? (types : InputTypes) (name : String) : Option TypeExpr := types.records.lookup name

/-- Notes that a type contains itself, once. -/
def addCycle (types : InputTypes) (name : String) : InputTypes :=
  if types.cycles.contains name then types else { types with cycles := types.cycles ++ [name] }

/-- Keeps the record of a type. -/
def keep (types : InputTypes) (name : String) (record : TypeExpr) : InputTypes :=
  { types with records := types.records ++ [(name, record)] }

/-- Maps the fields of a record from left to right. -/
def mapFields (typeOf : TypeRef → InputTypes → TypeExpr × InputTypes) :
    List (String × TypeRef) → InputTypes → List (String × TypeExpr) × InputTypes
  | [], types => ([], types)
  | (name, type) :: rest, types =>
      let (mapped, types) := typeOf type types
      let (others, types) := mapFields typeOf rest types
      ((Name.safe name, mapped) :: others, types)

/-- The type of a name without layers. `path` holds the types that are being written out, and the
depth exceeds the number of types that can still follow. -/
def typeOfName (schema : Schema) :
    (depth : Nat) → (path : List String) → String → InputTypes → TypeExpr × InputTypes
  | 0, _, name, types => (.named (Text.capitalize name), types)
  | depth + 1, path, name, types =>
      match schema.get? name with
      | none | some .scalar => (.scalar (Scalar.ofName name), types)
      | some (.enum _) => (.enum name, types)
      | some (.union members) =>
          (.union name (members.map fun member => (member, .named (Text.capitalize member))),
            types)
      | some (.object fields) | some (.interface fields) | some (.inputObject fields) =>
          match types.record? name with
          | some record => (record, types)
          | none =>
              if path.contains name then (.named (Text.capitalize name), types.addCycle name)
              else
                let fieldType (type : TypeRef) (types : InputTypes) : TypeExpr × InputTypes :=
                  let (inner, types) := typeOfName schema depth (name :: path) type.name types
                  (TypeExpr.wrap type.layers inner, types)
                let (mapped, types) := mapFields fieldType fields types
                let record := TypeExpr.closed mapped
                (record, types.keep name record)

/-- The Elm type of a reference. -/
def typeOf (schema : Schema) (type : TypeRef) (types : InputTypes) : TypeExpr × InputTypes :=
  let (inner, types) := typeOfName schema (schema.types.length + 1) [] type.name types
  (TypeExpr.wrap type.layers inner, types)

end InputTypes

end ElmClient
