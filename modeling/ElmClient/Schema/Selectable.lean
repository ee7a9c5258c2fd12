/-
Module: ElmClient.Schema.Selectable
Purpose: What a document can select in a schema: the roots of operations, the fields of a type,
  and the types that a fragment can be about.
Main exports: Schema.rootType, Schema.selectedType, Schema.conditionType, Schema.unionMembers?
-/
import ElmClient.GenerationError
import ElmClient.Schema.Basic

namespace ElmClient

open GraphQL

/-- The name of an operation that has none. -/
def anonymousName : String := "AnonymousQuery"

/-- The name of an operation. -/
def GraphQL.Operation.title (operation : Operation) : String :=
  operation.name.getD anonymousName

namespace Schema

/-- The type on which operations of a kind start. -/
def rootType (schema : Schema) (kind : OperationKind) (operation : String) :
    Except GenerationError String :=
  match schema.roots.root? kind with
  | some root => .ok root
  | none => .error (.unknownOperation kind operation)

/-- The type of a field that is selected on a type. Every type has a field with its name. -/
def selectedType (schema : Schema) (parent field : String) (position : Position) :
    Except GenerationError TypeRef :=
  if field == "__typename" then .ok (.nonNull (.named "String"))
  else
    match schema.fieldType? parent field with
    | some type => .ok type
    | none => .error (.unknownField field parent position)

/-- The type that a fragment is about. -/
def conditionType (schema : Schema) (name : String) (position : Position) :
    Except GenerationError String :=
  match schema.get? name with
  | some body => if body.isComposite then .ok name else .error (.unknownType name position)
  | none => .error (.unknownType name position)

/-- The members of the union of a name. -/
def unionMembers? (schema : Schema) (name : String) : Option (List String) :=
  match schema.get? name with
  | some (.union members) => some members
  | _ => none

end Schema

end ElmClient
