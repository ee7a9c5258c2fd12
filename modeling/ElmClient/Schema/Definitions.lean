/-
Module: ElmClient.Schema.Definitions
Purpose: The schema that a type system document describes.
Main exports: Schema.define, Schema.ofDefinitions, Schema.ofText
-/
import ElmClient.GraphQL.Parser.TypeSystem
import ElmClient.Schema.Basic

namespace ElmClient.Schema

open GraphQL

/-- Takes over one definition. A definition replaces an earlier one of its name, an extension adds
to it, and of the roots the later ones count. -/
def define (schema : Schema) : TypeSystemDefinition → Schema
  | .schema roots => { schema with roots := schema.roots.override roots }
  | .type false definition => schema.insert ⟨definition.name, definition.body.distinct⟩
  | .type true definition =>
      let extension := definition.body.distinct
      let body :=
        match schema.get? definition.name with
        | some base => base.extend extension
        | none => extension
      schema.insert ⟨definition.name, body⟩
  | .directive => schema

/-- The schema of some definitions. -/
def ofDefinitions (definitions : List TypeSystemDefinition) : Except SchemaError Schema :=
  (definitions.foldl define builtin).inferRoots

/-- The schema of a type system document. -/
def ofText (text : String) : Except SchemaError Schema :=
  match TypeSystemDefinition.parse text with
  | .error error => .error (.unreadableDefinitions error)
  | .ok definitions => ofDefinitions definitions

end ElmClient.Schema
