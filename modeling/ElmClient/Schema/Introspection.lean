/-
Module: ElmClient.Schema.Introspection
Purpose: The schema that the answer to an introspection query describes.
Main exports: Introspection, Introspection.form, Schema.ofIntrospection, Schema.ofIntrospectionText
-/
import ElmClient.Json.Parser
import ElmClient.Json.Pointer
import ElmClient.Schema.Basic

namespace ElmClient

open GraphQL

namespace Introspection

/-- A reference to a type: a kind, and a name or what the kind wraps. -/
inductive TypeRefEntry where
  | mk (kind : String) (name : Option String) (ofType : Option TypeRefEntry)
deriving Repr, Inhabited

/-- A field of a type. -/
structure FieldEntry where
  name : String
  type : TypeRefEntry
deriving Repr, Inhabited

/-- A type with the parts of all kinds. -/
structure TypeEntry where
  kind : String
  name : String
  fields : Option (List FieldEntry) := none
  inputFields : Option (List FieldEntry) := none
  enumValues : Option (List String) := none
  possibleTypes : Option (List String) := none
deriving Repr, Inhabited

end Introspection

/-- What an introspection query tells about a service. -/
structure Introspection where
  queryType : Option String := none
  mutationType : Option String := none
  subscriptionType : Option String := none
  types : List Introspection.TypeEntry
deriving Repr, Inhabited

namespace Introspection

open Json

/-- A record of which only the name counts. -/
def nameForm : Form String :=
  Form.record {
    name := "NamedRef"
    fields := [("name", false)]
    start := (none : Option String)
    add := fun key value record =>
      if key == "name" then some <$> Form.text value else .ok record
    complete := fun record => Form.require "name" record }

/-- A reference, whose nesting is bounded. -/
def typeRefForm : Nat → Form TypeRefEntry
  | 0 => fun value => Form.mistyped value "struct IntrospectionTypeRef"
  | depth + 1 =>
      Form.record {
        name := "IntrospectionTypeRef"
        fields := [("kind", false), ("name", true), ("ofType", true)]
        start := ((none, none, none) : Option String × Option String × Option TypeRefEntry)
        add := fun key value (kind, name, inner) =>
          if key == "kind" then do
            let kind ← Form.text value
            pure (some kind, name, inner)
          else if key == "name" then do
            let name ← Form.nullable Form.text value
            pure (kind, name, inner)
          else if key == "ofType" then do
            let inner ← Form.nullable (typeRefForm depth) value
            pure (kind, name, inner)
          else .ok (kind, name, inner)
        complete := fun (kind, name, inner) => do
          let kind ← Form.require "kind" kind
          pure (.mk kind name inner) }

/-- A field. -/
def fieldForm : Form FieldEntry :=
  Form.record {
    name := "IntrospectionField"
    fields := [("name", false), ("type", false)]
    start := ((none, none) : Option String × Option TypeRefEntry)
    add := fun key value (name, type) =>
      if key == "name" then do
        let name ← Form.text value
        pure (some name, type)
      else if key == "type" then do
        let type ← typeRefForm (value.depth + 1) value
        pure (name, some type)
      else .ok (name, type)
    complete := fun (name, type) => do
      let name ← Form.require "name" name
      let type ← Form.require "type" type
      pure ⟨name, type⟩ }

/-- The parts of a type entry that were read; kind and name may still be missing. -/
structure PartialType where
  kind : Option String := none
  name : Option String := none
  entry : TypeEntry := { kind := "", name := "" }

/-- A type. -/
def typeForm : Form TypeEntry :=
  Form.record {
    name := "FullType"
    fields := [("kind", false), ("name", false), ("fields", true), ("inputFields", true),
      ("enumValues", true), ("possibleTypes", true)]
    start := ({} : PartialType)
    add := fun key value read =>
      if key == "kind" then do
        let kind ← Form.text value
        pure { read with kind := some kind }
      else if key == "name" then do
        let name ← Form.text value
        pure { read with name := some name }
      else if key == "fields" then do
        let fields ← Form.nullable (Form.list fieldForm) value
        pure { read with entry := { read.entry with fields := fields } }
      else if key == "inputFields" then do
        let fields ← Form.nullable (Form.list fieldForm) value
        pure { read with entry := { read.entry with inputFields := fields } }
      else if key == "enumValues" then do
        let values ← Form.nullable (Form.list nameForm) value
        pure { read with entry := { read.entry with enumValues := values } }
      else if key == "possibleTypes" then do
        let types ← Form.nullable (Form.list nameForm) value
        pure { read with entry := { read.entry with possibleTypes := types } }
      else .ok read
    complete := fun read => do
      let kind ← Form.require "kind" read.kind
      let name ← Form.require "name" read.name
      pure { read.entry with kind := kind, name := name } }

/-- The whole answer. -/
def form : Form Introspection :=
  Form.record {
    name := "IntrospectionSchema"
    fields := [("queryType", false), ("mutationType", true), ("subscriptionType", true),
      ("types", false)]
    start := (({ types := [] }, none) : Introspection × Option (List TypeEntry))
    add := fun key value (read, types) =>
      if key == "queryType" then do
        let name ← Form.nullable nameForm value
        pure ({ read with queryType := name }, types)
      else if key == "mutationType" then do
        let name ← Form.nullable nameForm value
        pure ({ read with mutationType := name }, types)
      else if key == "subscriptionType" then do
        let name ← Form.nullable nameForm value
        pure ({ read with subscriptionType := name }, types)
      else if key == "types" then do
        let types ← Form.list typeForm value
        pure (read, some types)
      else .ok (read, types)
    complete := fun (read, types) => do
      let types ← Form.require "types" types
      pure { read with types := types } }

/-- The reference that an entry stands for, unless a part of it is missing. -/
def TypeRefEntry.typeRef? : TypeRefEntry → Option TypeRef
  | .mk kind name inner =>
      if kind == "NON_NULL" then
        match inner with
        | some entry => entry.typeRef?.map TypeRef.required
        | none => none
      else if kind == "LIST" then
        match inner with
        | some entry => entry.typeRef?.map TypeRef.list
        | none => none
      else name.map TypeRef.named

/-- The fields of a type by name. -/
def fieldTypes (owner : String) :
    List FieldEntry → Except SchemaError (List (String × TypeRef))
  | [] => .ok []
  | field :: rest =>
      match field.type.typeRef? with
      | none => .error (.malformedTypeRef (owner ++ "." ++ field.name))
      | some type => do
          let types ← fieldTypes owner rest
          pure ((field.name, type) :: types)

/-- The type that an entry stands for. -/
def TypeEntry.definition (entry : TypeEntry) : Except SchemaError TypeDefinition := do
  let body : TypeBody ←
    match entry.kind with
    | "SCALAR" => pure .scalar
    | "ENUM" => pure (.enum (entry.enumValues.getD []))
    | "OBJECT" => .object <$> fieldTypes entry.name (entry.fields.getD [])
    | "INTERFACE" => .interface <$> fieldTypes entry.name (entry.fields.getD [])
    | "INPUT_OBJECT" => .inputObject <$> fieldTypes entry.name (entry.inputFields.getD [])
    | "UNION" => pure (.union (entry.possibleTypes.getD []))
    | kind => .error (.unsupportedKind kind entry.name)
  pure ⟨entry.name, body.distinct⟩

/-- The roots that the answer names. -/
def roots (introspection : Introspection) : RootOperations where
  query := introspection.queryType
  mutation := introspection.mutationType
  subscription := introspection.subscriptionType

end Introspection

namespace Schema

/-- The schema of an introspection answer. -/
def ofIntrospection (introspection : Introspection) : Except SchemaError Schema := do
  let definitions ← introspection.types.mapM Introspection.TypeEntry.definition
  let schema := definitions.foldl (fun schema definition => schema.insert definition) builtin
  { schema with roots := introspection.roots }.inferRoots

/-- The part of a JSON value that holds the answer: what a full response or a bare answer holds,
or else the value itself. -/
def introspectionPart (value : Json) : Json :=
  ((value.pointer? "/data/__schema") <|> (value.pointer? "/__schema")).getD value

/-- The schema of the text of an introspection answer. Only the first JSON value of the text
counts. -/
def ofIntrospectionText (text : String) : Except SchemaError Schema :=
  match Json.parseFirst? text with
  | none => .error .malformedJson
  | some value =>
      match Introspection.form (introspectionPart value) with
      | .error error => .error (.unfitIntrospection error)
      | .ok introspection => ofIntrospection introspection

end Schema

end ElmClient
