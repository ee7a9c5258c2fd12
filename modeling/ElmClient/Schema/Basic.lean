/-
Module: ElmClient.Schema.Basic
Purpose: The types of a GraphQL service by name, in the order in which they were defined.
Main exports: Schema, Schema.get?, Schema.insert, Schema.fieldType?, Schema.inferRoots,
  SchemaError
-/
import ElmClient.GraphQL.TypeSystem
import ElmClient.Json.Form

namespace ElmClient

open GraphQL

/-- Why there is no schema. -/
inductive SchemaError where
  | unreadableDefinitions (error : DocumentError)
  | malformedJson
  | unfitIntrospection (error : Json.FormError)
  | unsupportedKind (kind name : String)
  | malformedTypeRef (place : String)
  | missingQueryType
deriving DecidableEq, Repr, Inhabited

/-- What is said where there is no schema. -/
def SchemaError.message : SchemaError → String
  | .unreadableDefinitions error => "failed to parse schema SDL: " ++ error.message
  | .malformedJson => "invalid introspection JSON"
  | .unfitIntrospection error => "invalid introspection JSON " ++ error.text
  | .unsupportedKind kind name => "unsupported type kind '" ++ kind ++ "' for '" ++ name ++ "'"
  | .malformedTypeRef place => "malformed type reference in '" ++ place ++ "'"
  | .missingQueryType => "schema has no query root type"

namespace GraphQL.TypeBody

/-- Whether values of the type have no parts to select. -/
def isLeaf : TypeBody → Bool
  | .scalar | .enum _ => true
  | _ => false

/-- Whether a fragment can be about the type. -/
def isComposite : TypeBody → Bool
  | .object _ | .interface _ | .union _ => true
  | _ => false

/-- The fields of object types, interfaces and input objects. -/
def fields? : TypeBody → Option (List (String × TypeRef))
  | .object fields | .interface fields | .inputObject fields => some fields
  | _ => none

/-- The fields that an operation can select. -/
def outputFields? : TypeBody → Option (List (String × TypeRef))
  | .object fields | .interface fields => some fields
  | _ => none

/-- The body with every field once: where it first came, with the type that came last. -/
def distinct : TypeBody → TypeBody
  | .object fields => .object (Dictionary.ofList fields)
  | .interface fields => .interface (Dictionary.ofList fields)
  | .inputObject fields => .inputObject (Dictionary.ofList fields)
  | other => other

/-- What an extension makes of a body. One of another kind takes its place. -/
def extend : (base extension : TypeBody) → TypeBody
  | .object fields, .object more => .object (Dictionary.extend fields more)
  | .interface fields, .interface more => .interface (Dictionary.extend fields more)
  | .inputObject fields, .inputObject more => .inputObject (Dictionary.extend fields more)
  | .enum values, .enum more => .enum (values ++ more)
  | .union members, .union more => .union (members ++ more)
  | _, extension => extension

end GraphQL.TypeBody

/-- A schema: its types, with distinct names, and the roots of its operations. -/
structure Schema where
  types : List (String × TypeBody)
  roots : RootOperations
deriving DecidableEq, Repr, Inhabited

namespace Schema

/-- The scalars that every schema has. -/
def builtinScalars : List String := ["Int", "Float", "String", "Boolean", "ID"]

/-- The schema of the built-in scalars, without any operations. -/
def builtin : Schema := ⟨builtinScalars.map fun name => (name, .scalar), {}⟩

/-- The type of a name. -/
def get? (schema : Schema) (name : String) : Option TypeBody := schema.types.lookup name

/-- Defines a type. A name that is there keeps its place. -/
def insert (definition : TypeDefinition) (schema : Schema) : Schema :=
  { schema with types := Dictionary.insert definition.name definition.body schema.types }

/-- The type of a field that can be selected on a type. -/
def fieldType? (schema : Schema) (parent field : String) : Option TypeRef := do
  let body ← schema.get? parent
  let fields ← body.outputFields?
  fields.lookup field

/-- Whether a name is that of an object type. -/
def isObject (schema : Schema) (name : String) : Bool :=
  match schema.get? name with
  | some (.object _) => true
  | _ => false

/-- A root of an operation: the declared one, or else the object type with the usual name. -/
def rootOr (schema : Schema) (declared : Option String) (usual : String) : Option String :=
  declared <|> if schema.isObject usual then some usual else none

/-- The schema with the roots that go without saying. A query root there must be. -/
def inferRoots (schema : Schema) : Except SchemaError Schema :=
  let roots : RootOperations :=
    { query := schema.rootOr schema.roots.query "Query"
      mutation := schema.rootOr schema.roots.mutation "Mutation"
      subscription := schema.rootOr schema.roots.subscription "Subscription" }
  if roots.query.isNone then .error .missingQueryType else .ok { schema with roots := roots }

end Schema

end ElmClient
