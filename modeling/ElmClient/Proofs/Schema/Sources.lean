/-
Module: ElmClient.Proofs.Schema.Sources
Purpose: A schema does not depend on how it is told. Type definitions and the entries of an answer
  to an introspection query that describe the same types in the same order, with the same roots,
  give the same schema, or neither gives one because there is no query root.
Main exports: Introspection.TypeRefEntry.Describes, Introspection.TypeEntry.Describes,
  Schema.ofDefinitions_eq, Schema.ofIntrospection_eq, schema_sources_agree
-/
import ElmClient.Proofs.Schema.WellFormed

namespace ElmClient

open GraphQL

/-! ### Written types -/

namespace GraphQL

/-- A type as it is written: a name or a list, each with or without a mark. -/
inductive WrittenType where
  | named (name : String) (marked : Bool)
  | list (item : WrittenType) (marked : Bool)
deriving DecidableEq, Repr, Inhabited

/-- A reference with a mark, if there is one. -/
def TypeRef.marked (type : TypeRef) (marked : Bool) : TypeRef :=
  if marked then type.required else type

/-- The reference that is written. -/
def WrittenType.typeRef : WrittenType → TypeRef
  | .named name marked => (TypeRef.named name).marked marked
  | .list item marked => (TypeRef.list item.typeRef).marked marked

theorem TypeRef.isProper_marked {type : TypeRef} (proper : type.isProper = true) (marked : Bool) :
    (type.marked marked).isProper = true := by
  cases marked with
  | false => exact proper
  | true => exact isProper_required proper

/-- The references of written types have no mark directly inside a mark. -/
theorem WrittenType.isProper_typeRef : ∀ written : WrittenType, written.typeRef.isProper = true
  | .named _ marked => TypeRef.isProper_marked rfl marked
  | .list item marked => by
      have proper : (TypeRef.list item.typeRef).isProper = true := item.isProper_typeRef
      exact TypeRef.isProper_marked proper marked

/-- What has no mark directly inside a mark can be written. -/
theorem TypeRef.exists_written {type : TypeRef} (proper : type.isProper = true) :
    ∃ written : WrittenType, type = written.typeRef := by
  induction type with
  | named name => exact ⟨.named name false, rfl⟩
  | list item ih =>
      obtain ⟨written, same⟩ := ih proper
      exact ⟨.list written false, congrArg TypeRef.list same⟩
  | nonNull inner ih =>
      simp only [isProper, Bool.and_eq_true, Bool.not_eq_true'] at proper
      obtain ⟨written, rfl⟩ := ih proper.2
      -- A mark inside would be one directly inside the outer mark.
      cases written with
      | named name marked =>
          cases marked with
          | false => exact ⟨.named name true, rfl⟩
          | true => exact Bool.noConfusion proper.1
      | list item marked =>
          cases marked with
          | false => exact ⟨.list item true, rfl⟩
          | true => exact Bool.noConfusion proper.1

/-- A body whose fields have types that can be written. -/
def TypeBody.Written (body : TypeBody) : Prop :=
  ∀ fields, body.fields? = some fields →
    ∀ field ∈ fields, ∃ written : WrittenType, field.2 = written.typeRef

theorem TypeBody.written_iff_proper {body : TypeBody} : body.Written ↔ body.Proper := by
  constructor
  · intro each fields held field member
    obtain ⟨written, same⟩ := each fields held field member
    rw [same]
    exact written.isProper_typeRef
  · intro proper fields held field member
    exact TypeRef.exists_written (proper fields held field member)

end GraphQL

/-! ### Entries that describe types -/

namespace Introspection

/-- An entry that spells a reference: its kinds are the marks and lists of the reference from
outside to inside, and its innermost part names the type. -/
inductive TypeRefEntry.Describes : TypeRefEntry → TypeRef → Prop where
  | named {kind name inner} (noMark : kind ≠ "NON_NULL") (noList : kind ≠ "LIST") :
      Describes (.mk kind (some name) inner) (.named name)
  | list {name entry item} (below : Describes entry item) :
      Describes (.mk "LIST" name (some entry)) (.list item)
  | nonNull {name entry inner} (below : Describes entry inner) :
      Describes (.mk "NON_NULL" name (some entry)) (.nonNull inner)

/-- An entry with the name and the type of a field. -/
def FieldEntry.Describes (entry : FieldEntry) (field : String × TypeRef) : Prop :=
  entry.name = field.1 ∧ entry.type.Describes field.2

/-- The entries of fields in order. Where there are no fields they may be left out. -/
def DescribesFields (entries : Option (List FieldEntry)) (fields : List (String × TypeRef)) :
    Prop :=
  List.Forall₂ FieldEntry.Describes (entries.getD []) fields

/-- An entry with the kind of a body that lists the parts of the body where its kind asks for
them. What other kinds list does not count. -/
def TypeEntry.DescribesBody (entry : TypeEntry) : TypeBody → Prop
  | .scalar => entry.kind = "SCALAR"
  | .enum values => entry.kind = "ENUM" ∧ entry.enumValues.getD [] = values
  | .object fields => entry.kind = "OBJECT" ∧ DescribesFields entry.fields fields
  | .interface fields => entry.kind = "INTERFACE" ∧ DescribesFields entry.fields fields
  | .inputObject fields => entry.kind = "INPUT_OBJECT" ∧ DescribesFields entry.inputFields fields
  | .union members => entry.kind = "UNION" ∧ entry.possibleTypes.getD [] = members

/-- An entry for a type that a definition defines. -/
structure TypeEntry.Describes (entry : TypeEntry) (definition : TypeDefinition) : Prop where
  name : entry.name = definition.name
  body : entry.DescribesBody definition.body

/-- An entry that spells a reference stands for it, if no mark is directly inside a mark. -/
theorem TypeRefEntry.Describes.typeRef_eq {entry : TypeRefEntry} {type : TypeRef}
    (describes : entry.Describes type) (proper : type.isProper = true) :
    entry.typeRef? = some type := by
  induction describes with
  | named noMark noList =>
      unfold TypeRefEntry.typeRef?
      simp [noMark, noList]
  | list below ih =>
      unfold TypeRefEntry.typeRef?
      simp [ih proper]
  | @nonNull name entry inner below ih =>
      simp only [TypeRef.isProper, Bool.and_eq_true, Bool.not_eq_true'] at proper
      have once : inner.required = .nonNull inner := by
        cases inner with
        | nonNull _ => exact Bool.noConfusion proper.1
        | named _ | list _ => rfl
      unfold TypeRefEntry.typeRef?
      simp [ih proper.2, once]

theorem fieldTypes_of_describes (owner : String) {entries : List FieldEntry}
    {fields : List (String × TypeRef)}
    (described : List.Forall₂ FieldEntry.Describes entries fields) (proper : ProperFields fields) :
    fieldTypes owner entries = .ok fields := by
  induction described with
  | nil => rfl
  | @cons entry field _ _ here _ ih =>
      obtain ⟨properHere, properLater⟩ := List.forall_mem_cons.mp proper
      obtain ⟨named, typed⟩ := here
      simp only [fieldTypes, typed.typeRef_eq properHere, ih properLater, named]
      rfl

/-- An entry that describes a definition stands for its type, with every field once. -/
theorem TypeEntry.Describes.definition_eq_ok {entry : TypeEntry} {definition : TypeDefinition}
    (describes : entry.Describes definition) (proper : definition.body.Proper) :
    entry.definition = .ok ⟨definition.name, definition.body.distinct⟩ := by
  obtain ⟨named, described⟩ := describes
  obtain ⟨name, body⟩ := definition
  simp only at named described proper
  cases body with
  | scalar =>
      simp only [TypeEntry.DescribesBody] at described
      simp only [TypeEntry.definition, described, named]
      rfl
  | enum values | union members =>
      obtain ⟨kind, listed⟩ := described
      simp only [TypeEntry.definition, kind, named, listed]
      rfl
  | object fields | interface fields | inputObject fields =>
      obtain ⟨kind, listed⟩ := described
      have typed := fieldTypes_of_describes name listed (proper fields rfl)
      simp only [TypeEntry.definition, kind, named, typed]
      rfl

end Introspection

/-! ### Definitions without extensions -/

namespace GraphQL.TypeSystemDefinition

/-- Whether a definition extends a type that is there. -/
def isExtension : TypeSystemDefinition → Bool
  | .type isExtension _ => isExtension
  | .schema _ | .directive => false

/-- The type that is defined. -/
def defined? : TypeSystemDefinition → Option TypeDefinition
  | .type _ definition => some definition
  | .schema _ | .directive => none

/-- The roots that a schema block names. -/
def roots? : TypeSystemDefinition → Option RootOperations
  | .schema roots => some roots
  | .type _ _ | .directive => none

end GraphQL.TypeSystemDefinition

theorem GraphQL.RootOperations.override_empty (roots : RootOperations) :
    RootOperations.override {} roots = roots := by
  simp [override]

namespace Schema

/-- The built-in scalars and some types in order, each field once, with declared roots. A type that
is defined again keeps its place and has its last body. -/
def ofTypes (types : List TypeDefinition) (roots : RootOperations) : Schema where
  types := Dictionary.extend builtin.types
    (types.map fun definition => (definition.name, definition.body.distinct))
  roots := roots

/-- Definitions without extensions insert their types and override the roots. -/
theorem foldl_define {definitions : List TypeSystemDefinition}
    (plain : ∀ definition ∈ definitions, definition.isExtension = false) (schema : Schema) :
    definitions.foldl define schema =
      { types := Dictionary.extend schema.types
          ((definitions.filterMap (·.defined?)).map
            fun definition => (definition.name, definition.body.distinct))
        roots :=
          (definitions.filterMap (·.roots?)).foldl RootOperations.override schema.roots } := by
  induction definitions generalizing schema with
  | nil => rfl
  | cons first rest ih =>
      obtain ⟨here, later⟩ := List.forall_mem_cons.mp plain
      rw [List.foldl_cons, ih later]
      cases first with
      | schema roots => rfl
      | directive => rfl
      | type isExtension definition =>
          obtain rfl : isExtension = false := here
          rfl

/-- Definitions without extensions, with at most one schema block among them, give the schema of
their types in order. -/
theorem ofDefinitions_eq {definitions : List TypeSystemDefinition}
    (plain : ∀ definition ∈ definitions, definition.isExtension = false)
    {block : Option RootOperations} (single : definitions.filterMap (·.roots?) = block.toList) :
    ofDefinitions definitions =
      (ofTypes (definitions.filterMap (·.defined?)) (block.getD {})).inferRoots := by
  rw [ofDefinitions, foldl_define plain, single]
  cases block with
  | none => rfl
  | some roots =>
      rw [Option.toList_some, List.foldl_cons, List.foldl_nil, Option.getD_some]
      rw [show builtin.roots = {} from rfl, RootOperations.override_empty]
      rfl

theorem foldl_insert (definitions : List TypeDefinition) (schema : Schema) :
    definitions.foldl (fun schema definition => schema.insert definition) schema =
      { schema with
        types := Dictionary.extend schema.types
          (definitions.map fun definition => (definition.name, definition.body)) } := by
  induction definitions generalizing schema with
  | nil => rfl
  | cons first rest ih =>
      rw [List.foldl_cons, ih]
      rfl

/-- An answer whose entries describe some types gives the schema of these types in order. -/
theorem ofIntrospection_eq {introspection : Introspection} {types : List TypeDefinition}
    (described : List.Forall₂ Introspection.TypeEntry.Describes introspection.types types)
    (proper : ∀ definition ∈ types, definition.body.Proper) :
    ofIntrospection introspection = (ofTypes types introspection.roots).inferRoots := by
  have made : introspection.types.mapM Introspection.TypeEntry.definition =
      .ok (types.map fun definition => ⟨definition.name, definition.body.distinct⟩) := by
    apply Except.mapM_eq_ok.mpr
    rw [List.forall₂_map_right_iff]
    refine (Forall₂.imp_of_mem described.flip fun definition member entry describes => ?_).flip
    exact describes.definition_eq_ok (proper definition member)
  rw [ofIntrospection, made]
  simp only [bind, Except.bind, foldl_insert, List.map_map]
  rfl

/-- Roots are refused where none is declared for queries and the usual one is no object. -/
theorem inferRoots_cases (schema : Schema) :
    (∃ result, schema.inferRoots = .ok result ∧ result.types = schema.types ∧
        ∀ kind root, schema.roots.root? kind = some root → result.roots.root? kind = some root) ∨
      schema.inferRoots = .error .missingQueryType ∧ schema.roots.query = none ∧
        schema.isObject "Query" = false := by
  cases rooted : schema.rootOr schema.roots.query "Query" with
  | none =>
      refine Or.inr ⟨by simp [inferRoots, rooted], ?_⟩
      cases declared : schema.roots.query <;> simp_all [rootOr]
  | some query =>
      have inferred : schema.inferRoots = .ok { schema with
          roots :=
            { query := some query
              mutation := schema.rootOr schema.roots.mutation "Mutation"
              subscription := schema.rootOr schema.roots.subscription "Subscription" } } := by
        simp [inferRoots, rooted]
      refine Or.inl ⟨_, inferred, rfl, ?_⟩
      intro kind root declared
      cases kind <;> simp_all [RootOperations.root?, rootOr]

end Schema

/-- Type definitions without extensions, in which all types can be written, with at most one schema
block among them, and an answer to an introspection query that describes the same types in the same
order and names the same roots tell one schema. It has these types, and all roots that were
declared. Only where no root for queries is declared and no object has the usual name of one, there
is no schema. -/
theorem schema_sources_agree {definitions : List TypeSystemDefinition}
    {block : Option RootOperations} {introspection : Introspection}
    (plain : ∀ definition ∈ definitions, definition.isExtension = false)
    (single : definitions.filterMap (·.roots?) = block.toList)
    (written : ∀ type ∈ definitions.filterMap (·.defined?), type.body.Written)
    (described : List.Forall₂ Introspection.TypeEntry.Describes introspection.types
      (definitions.filterMap (·.defined?)))
    (rooted : introspection.roots = block.getD {}) :
    (∃ schema, Schema.ofDefinitions definitions = .ok schema ∧
        Schema.ofIntrospection introspection = .ok schema ∧
        schema.types = Dictionary.extend Schema.builtin.types
          ((definitions.filterMap (·.defined?)).map
            fun type => (type.name, type.body.distinct)) ∧
        ∀ kind root, (block.getD {}).root? kind = some root →
          schema.roots.root? kind = some root) ∨
      (Schema.ofDefinitions definitions = .error .missingQueryType ∧
        Schema.ofIntrospection introspection = .error .missingQueryType ∧
        (block.getD {}).query = none ∧
        (Schema.ofTypes (definitions.filterMap (·.defined?)) {}).isObject "Query" = false) := by
  have proper (type : TypeDefinition) (member : type ∈ definitions.filterMap (·.defined?)) :
      type.body.Proper :=
    TypeBody.written_iff_proper.mp (written type member)
  rw [Schema.ofDefinitions_eq plain single, Schema.ofIntrospection_eq described proper, rooted]
  rcases Schema.inferRoots_cases (Schema.ofTypes (definitions.filterMap (·.defined?))
    (block.getD {})) with ⟨schema, inferred, types, declared⟩ | ⟨refused, undeclared, usual⟩
  · exact Or.inl ⟨schema, inferred, inferred, types, declared⟩
  · exact Or.inr ⟨refused, refused, undeclared, usual⟩

/-! ### A schema with a repeated field and a repeated type -/

/-- The roots of the schema block. -/
def shelfRoots : RootOperations where
  query := some "Query"
  mutation := some "Write"

/-- Definitions with a repeated field, a type that is defined twice and a built-in scalar, around a
schema block that leaves one root out. -/
def shelfDefinitions : List TypeSystemDefinition :=
  [.type false ⟨"Book", .enum ["OLD"]⟩, .directive,
    .type false ⟨"Query", .object [("books", .nonNull (.list (.nonNull (.named "Book")))),
      ("owner", .named "ID"), ("books", .list (.nonNull (.list (.named "Book"))))]⟩,
    .schema shelfRoots,
    .type false ⟨"ID", .scalar⟩,
    .type false ⟨"Book", .union ["Novel", "Query"]⟩,
    .type false ⟨"Novel", .interface [("id", .nonNull (.named "ID"))]⟩,
    .type false ⟨"Filter", .inputObject [("all", .list (.named "Filter"))]⟩]

/-- What an introspection query tells of the same types. -/
def shelfAnswer : Introspection where
  queryType := some "Query"
  mutationType := some "Write"
  types :=
    let named (name : String) : Introspection.TypeRefEntry := .mk "OBJECT" (some name) none
    let list (item : Introspection.TypeRefEntry) : Introspection.TypeRefEntry :=
      .mk "LIST" none (some item)
    let nonNull (inner : Introspection.TypeRefEntry) : Introspection.TypeRefEntry :=
      .mk "NON_NULL" none (some inner)
    [{ kind := "ENUM", name := "Book", enumValues := some ["OLD"] },
      { kind := "OBJECT", name := "Query",
        fields := some [⟨"books", nonNull (list (nonNull (named "Book")))⟩,
          ⟨"owner", named "ID"⟩, ⟨"books", list (nonNull (list (named "Book")))⟩] },
      { kind := "SCALAR", name := "ID", fields := some [] },
      { kind := "UNION", name := "Book", possibleTypes := some ["Novel", "Query"] },
      { kind := "INTERFACE", name := "Novel", fields := some [⟨"id", nonNull (named "ID")⟩] },
      { kind := "INPUT_OBJECT", name := "Filter",
        inputFields := some [⟨"all", list (named "Filter")⟩] }]

theorem shelf_sources_agree : ∃ schema, Schema.ofDefinitions shelfDefinitions = .ok schema ∧
    Schema.ofIntrospection shelfAnswer = .ok schema ∧
    schema.types.lookup "Book" = some (.union ["Novel", "Query"]) ∧
    schema.types.lookup "Query" = some (.object
      [("books", .list (.nonNull (.list (.named "Book")))), ("owner", .named "ID")]) ∧
    schema.roots.root? .mutation = some "Write" := by
  have plain : ∀ definition ∈ shelfDefinitions, definition.isExtension = false := by decide
  have proper : ∀ type ∈ shelfDefinitions.filterMap (·.defined?),
      ∀ field ∈ type.body.fields?.getD [], field.2.isProper = true := by decide
  have written : ∀ type ∈ shelfDefinitions.filterMap (·.defined?), type.body.Written := by
    refine fun type member => TypeBody.written_iff_proper.mpr ?_
    exact fun fields held field among => proper type member field (by rwa [held])
  have described : List.Forall₂ Introspection.TypeEntry.Describes shelfAnswer.types
      (shelfDefinitions.filterMap (·.defined?)) := by
    have named (name : String) : Introspection.TypeRefEntry.Describes
        (.mk "OBJECT" (some name) none) (.named name) := .named (by decide) (by decide)
    refine .cons ⟨rfl, rfl, rfl⟩ (.cons ⟨rfl, rfl, ?_⟩ (.cons ⟨rfl, rfl⟩ (.cons ⟨rfl, rfl, rfl⟩
      (.cons ⟨rfl, rfl, ?_⟩ (.cons ⟨rfl, rfl, ?_⟩ .nil)))))
    · exact .cons ⟨rfl, .nonNull (.list (.nonNull (named _)))⟩ (.cons ⟨rfl, named _⟩
        (.cons ⟨rfl, .list (.nonNull (.list (named _)))⟩ .nil))
    · exact .cons ⟨rfl, .nonNull (named _)⟩ .nil
    · exact .cons ⟨rfl, .list (named _)⟩ .nil
  have single : shelfDefinitions.filterMap (·.roots?) = (some shelfRoots).toList := rfl
  rcases schema_sources_agree plain single written described rfl with
    ⟨schema, defined, answered, types, declared⟩ | refused
  · refine ⟨schema, defined, answered, ?_, ?_, declared .mutation "Write" rfl⟩
    · rw [types]
      decide
    · rw [types]
      decide
  · exact nomatch refused.2.2.1

end ElmClient
