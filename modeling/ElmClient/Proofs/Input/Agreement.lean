/-
Module: ElmClient.Proofs.Input.Agreement
Purpose: The declared types of what a client sends have the shapes of the encoders that send it: the
  parameters of an operation with their aliases expanded, and the record in the custom type of an
  input type that contains itself. Only unions are in the way, which have a type of their own but
  are encoded as scalars.
Main exports: InputForm.shape_eq, generate_inputs_agree, petModule_inputs_differ
-/
import ElmClient.Proofs.Input.Clients
import ElmClient.Proofs.Response.Shape

namespace ElmClient

open GraphQL Elm

/-! ### Shapes of forms -/

theorem Elm.Encoder.shape_wrap (layers : List Layer) (encoder : Encoder) :
    (Encoder.wrap layers encoder).shape = Shape.wrap layers encoder.shape := by
  induction layers with
  | nil => rfl
  | cons layer rest ih =>
      cases layer with
      | optional => exact congrArg Shape.optional ih
      | list => exact congrArg Shape.list ih

theorem Elm.Encoder.fieldShapes_eq (fields : List (EncodedField Encoder)) :
    Encoder.fieldShapes fields = fields.map fun field => (field.name, field.encoder.shape) := by
  induction fields with
  | nil => rfl
  | cons first rest ih => simp [Encoder.fieldShapes, ih]

section Forms

variable {schema : Schema} {cycles : List String} {names : Resolution}

/-- The layers of a slot stand around its type and around its encoder alike. -/
theorem InputSlot.shape_field {slot : InputSlot}
    (same : slot.elm.shapeIn names = slot.encoder.shape) :
    slot.field.2.shapeIn names = slot.encoded.encoder.shape := by
  rw [InputSlot.field, InputSlot.encoded, TypeExpr.shapeIn_wrap, Encoder.shape_wrap, same]

/-- Where no alias has the name of a type that contains itself, a type without unions has the shape
of its encoder. -/
theorem InputForm.shape_eq
    (unaliased : ∀ input ∈ cycles, names.aliasShape (Text.capitalize input) = none)
    {name : String} {type : TypeExpr} {encoder : Encoder}
    (form : InputForm schema cycles name type encoder) (free : schema.UnionFree name) :
    type.shapeIn names = encoder.shape := by
  induction form with
  | scalar _ => rfl
  | enum _ => rfl
  | @union name members united =>
      have none := free name (.refl name)
      rw [united] at none
      exact nomatch none
  | cut member =>
      rw [TypeExpr.shapeIn, unaliased _ member]
      rfl
  | object slots held each ih =>
      rw [TypeExpr.closed, TypeExpr.shapeIn, Encoder.shape, TypeExpr.shapesIn_eq,
        Encoder.fieldShapes_eq, List.map_map, List.map_map]
      congr 1
      apply List.map_congr_left
      intro slot member
      have below : schema.UnionFree slot.type.name :=
        free.field held (List.mem_map_of_mem (f := InputSlot.declared) member)
      exact congrArg (Prod.mk _) (InputSlot.shape_field (ih slot member below))

end Forms

/-! ### Shapes in a module -/

namespace Elm.Module

theorem aliasShape_succ (m : Module) (depth : Nat) (name : String) :
    (m.resolution (depth + 1)).aliasShape name =
      (m.aliasType name).map (·.shapeIn (m.resolution depth)) := rfl

/-- A module with a request has its alias too, so names can be followed twice. -/
theorem exists_two_declarations {m : Module} (requested : m.requests ≠ [])
    (aliased : m.typeAliases ≠ []) : ∃ depth, m.declarations.length = depth + 2 := by
  unfold requests at requested
  unfold typeAliases at aliased
  cases declared : m.declarations with
  | nil => exact absurd (by rw [declared]; rfl) requested
  | cons first rest =>
      cases rest with
      | cons second rest => exact ⟨rest.length, rfl⟩
      | nil =>
          rw [declared] at requested aliased
          cases first with
          | request r => exact absurd rfl aliased
          | _ => exact absurd rfl requested

end Elm.Module

namespace BoundDocument.Assembles

variable {bound : BoundDocument} {options : GenerationOptions} {m : Module}
  {inventory : Inventory} {plans : List (String × SelectionPlan)}
  {clients : List OperationClient} {shared : SharedInputs}

/-- At no depth an alias has the name of an input type that contains itself. -/
theorem unaliased (assembles : bound.Assembles options m inventory plans clients shared)
    (distinct : m.typeNames.Nodup) (depth : Nat) :
    ∀ input ∈ shared.types.cycles,
      (m.resolution depth).aliasShape (Text.capitalize input) = none := by
  intro input member
  cases depth with
  | zero => rfl
  | succ depth =>
      rw [Module.aliasShape_succ, assembles.aliasType_of_cycle distinct member]
      rfl

/-- The parameters of an operation without unions have the shapes of its encoders. Two levels of
aliases are followed: that of the parameters and those of the variables. -/
theorem shape_parameters (assembles : bound.Assembles options m inventory plans clients shared)
    (distinct : m.typeNames.Nodup) {operation : Operation} {client : OperationClient}
    (among : client ∈ clients) {slots : List InputSlot}
    (takes : client.Takes bound.schema shared.types.cycles operation slots)
    (free : ∀ slot ∈ slots, bound.schema.UnionFree slot.type.name) {parametersType : String}
    (named : client.request.parametersType = some parametersType) (depth : Nat) :
    (TypeExpr.named parametersType).shapeIn (m.resolution (depth + 2)) =
      Shape.ofFields
        (client.request.parameters.map fun parameter => (parameter.name, parameter.encoder.shape)) := by
  have aliased : m.aliasType parametersType = some (.closed client.parameters) := by
    apply assembles.aliasType_of_mem distinct among
    rw [OperationClient.aliases, named]
    exact List.mem_append_right _ List.mem_cons_self
  have encoders : (client.request.parameters.map fun parameter =>
      (parameter.name, parameter.encoder.shape)) =
      slots.map fun slot => (slot.encoded.name, slot.encoded.encoder.shape) := by
    have together := congrArg (List.map fun field : EncodedField Encoder =>
      (field.name, field.encoder.shape)) takes.encoded
    simpa only [List.map_map, Function.comp_def] using together
  rw [TypeExpr.shapeIn, Module.aliasShape_succ, aliased, Option.map_some, Option.getD_some,
    encoders, TypeExpr.closed, TypeExpr.shapeIn, TypeExpr.shapesIn_eq, takes.parameters, List.map_map]
  congr 1
  apply List.map_congr_left
  intro slot member
  refine congrArg (Prod.mk _) ?_
  have same (depth : Nat) : slot.field.2.shapeIn (m.resolution depth) =
      slot.encoded.encoder.shape :=
    InputSlot.shape_field ((takes.forms slot member).shape_eq
      (assembles.unaliased distinct depth) (free slot member))
  by_cases known : bound.schema.isDeclared slot.type.name = true
  · have aliased' : m.aliasType (slot.inputName client.resultType) = some slot.field.2 := by
      apply assembles.aliasType_of_mem distinct among
      rw [OperationClient.aliases, takes.inputs]
      refine List.mem_append_left _ (List.mem_cons_of_mem _ ?_)
      exact List.mem_map.mpr ⟨slot, List.mem_filter.mpr ⟨member, known⟩, rfl⟩
    simp only [InputSlot.parameterField, known, if_true]
    rw [TypeExpr.shapeIn, Module.aliasShape_succ, aliased', Option.map_some, Option.getD_some]
    exact same depth
  · simp only [InputSlot.parameterField, known]
    exact same (depth + 1)

end BoundDocument.Assembles

/-- In a module that is generated for a document, and in which no two types have one name, the
parameters of every operation whose variables lead to no union have the shape of its encoders, and
so has the record of every input type that contains itself and leads to no union. -/
theorem generate_inputs_agree {schema : Schema} {document : Document} {options : GenerationOptions}
    {m : Module} (generated : generate schema document options = .ok m)
    (distinct : m.typeNames.Nodup) :
    (∀ operation ∈ document.operations,
      (∀ definition ∈ operation.definitions, schema.UnionFree definition.type.name) →
        ∃ request, m.request operation.title = some request ∧
          (operation.definitions ≠ [] → ∃ parametersType,
            request.parametersType = some parametersType ∧
              m.shape (.named parametersType) = Shape.ofFields
                (request.parameters.map fun parameter =>
                  (parameter.name, parameter.encoder.shape)))) ∧
    ∀ input encoder, (input, encoder) ∈ m.encoders → schema.UnionFree input →
      ∃ record, ⟨Text.capitalize input, [], [(Text.capitalize input, [record])]⟩ ∈ m.customTypes ∧
        m.shape record = encoder.shape := by
  obtain ⟨bound, inventory, plans, clients, shared, bind_ok, assembles⟩ :=
    generate_assembles generated
  obtain ⟨rfl, _, _⟩ := BoundDocument.bind_eq_ok bind_ok
  have declares := assembles.declares
  have aliases := Module.typeAliases_nodup distinct
  constructor
  · intro operation member free
    have among := (BoundDocument.operations_perm bind_ok).mem_iff.mpr member
    obtain ⟨client, there, made, slots, takes⟩ := assembles.takes among
    have found := declares.request_of_mem (declares.titles_nodup aliases) there
    rw [made.operationName] at found
    refine ⟨client.request, found, fun some => ?_⟩
    have filled : slots.isEmpty = false := by
      cases slots with
      | nil => exact absurd (List.map_eq_nil_iff.mp takes.declared.symm) some
      | cons => rfl
    have named : client.request.parametersType = .some (client.resultType ++ "_Input") := by
      rw [takes.parametersType, filled]
      rfl
    have slotsFree : ∀ slot ∈ slots, bound.schema.UnionFree slot.type.name := by
      intro slot among'
      obtain ⟨definition, defined, _, sameType⟩ := takes.exists_definition among'
      exact sameType ▸ free definition defined
    have requested : client.request ∈ m.requests := List.mem_of_find?_eq_some found
    have aliased := Dictionary.mem_of_lookup (declares.alias_of_mem aliases there)
    obtain ⟨depth, enough⟩ :=
      Module.exists_two_declarations (List.ne_nil_of_mem requested) (List.ne_nil_of_mem aliased)
    refine ⟨_, named, ?_⟩
    rw [Module.shape, enough]
    exact assembles.shape_parameters distinct there takes slotsFree named depth
  · intro input encoder member free
    rw [assembles.encoders] at member
    obtain ⟨other, cyclic, same⟩ := List.mem_map.mp member
    obtain ⟨rfl, rfl⟩ := Prod.mk.inj same
    refine ⟨shared.record other, assembles.customType_of_cycle cyclic, ?_⟩
    exact (assembles.recursive cyclic).form.shape_eq
      (assembles.unaliased distinct _) free

/-! ### A document with an input type that contains itself -/

/-- A schema with an input type that contains itself and an enumeration, and with a union of objects
below the root. -/
def zooSchema : Schema where
  types := [("String", .scalar), ("Query", .object [("pets", .list (.named "Pet"))]),
    ("Pet", .union ["Dog", "Cat"]),
    ("Dog", .object [("name", .named "String"), ("color", .named "Color")]),
    ("Cat", .object [("name", .named "String")]), ("Color", .enum ["BLACK", "WHITE"]),
    ("Filter", .inputObject [("color", .named "Color"),
      ("and", .list (.nonNull (.named "Filter")))])]
  roots := { query := some "Query" }

/-- A document about the schema. -/
def zooText : String :=
  "query Pets($filter: Filter!, $name: String) \x7b pets(filter: $filter, name: $name) \x7b " ++
    "__typename ... on Dog \x7b ...Coat name \x7d ... on Cat \x7b name \x7d \x7d \x7d " ++
      "fragment Coat on Dog \x7b color \x7d"

/-- What is asked for beside the document. -/
def zooOptions : GenerationOptions := ⟨"Queries.Zoo", "/graphql", .post, false⟩

/-- The types to which fields lead from those of the variables. -/
def zooInputs : List String := ["Filter", "Color", "String"]

theorem zooInputs_unionFree : ∀ name ∈ zooInputs, zooSchema.UnionFree name :=
  fun _ member => Schema.UnionFree.of_closed (by decide) member

theorem exists_zooModule : ∃ document m, Document.parse zooText = .ok document ∧
    generate zooSchema document zooOptions = .ok m ∧ m.typeNames.Nodup ∧
      (∃ operation ∈ document.operations, operation.definitions ≠ [] ∧
        ∀ definition ∈ operation.definitions, definition.type.name ∈ zooInputs) ∧
      ∃ entry ∈ m.encoders, entry.1 ∈ zooInputs := by
  have evaluated : (Document.parse zooText).toOption.any (fun document =>
      (generate zooSchema document zooOptions).toOption.any fun m =>
        decide m.typeNames.Nodup && (document.operations.any fun operation =>
            !operation.definitions.isEmpty && operation.definitions.all fun definition =>
              zooInputs.contains definition.type.name) &&
          m.encoders.any fun entry => zooInputs.contains entry.1) = true := by decide +kernel
  obtain ⟨document, parsed, evaluated⟩ := Except.any_toOption.mp evaluated
  obtain ⟨m, generated, evaluated⟩ := Except.any_toOption.mp evaluated
  simp only [Bool.and_eq_true, List.any_eq_true, List.all_eq_true, List.contains_iff_mem,
    decide_eq_true_eq, Bool.not_eq_true', List.isEmpty_eq_false_iff] at evaluated
  obtain ⟨⟨distinct, operations⟩, encoders⟩ := evaluated
  exact ⟨document, m, parsed, generated, distinct, operations, encoders⟩

theorem zoo_inputs_agree : ∃ document m, generate zooSchema document zooOptions = .ok m ∧
    (∃ operation ∈ document.operations, ∃ request, m.request operation.title = some request ∧
      ∃ parametersType, request.parametersType = some parametersType ∧
        m.shape (.named parametersType) = Shape.ofFields (request.parameters.map fun parameter =>
          (parameter.name, parameter.encoder.shape))) ∧
    ∃ entry ∈ m.encoders, ∃ record,
      ⟨Text.capitalize entry.1, [], [(Text.capitalize entry.1, [record])]⟩ ∈ m.customTypes ∧
        m.shape record = entry.2.shape := by
  obtain ⟨document, m, _, generated, distinct, ⟨operation, among, some, inputs⟩, entry, declared,
    known⟩ := exists_zooModule
  obtain ⟨parameters, recursive⟩ := generate_inputs_agree generated distinct
  obtain ⟨request, found, named⟩ := parameters operation among fun definition member =>
    zooInputs_unionFree _ (inputs definition member)
  exact ⟨document, m, generated, ⟨operation, among, request, found, named some⟩, entry, declared,
    recursive entry.1 entry.2 declared (zooInputs_unionFree _ known)⟩

/-! ### Unions in input types -/

/-- A schema with an input type that contains itself and leads to a union. -/
def petSchema : Schema where
  types := [("Query", .object [("a", .named "Int")]), ("Pet", .union ["Dog", "Cat"]),
    ("Dog", .object [("name", .named "String")]), ("Cat", .object [("name", .named "String")]),
    ("Int", .scalar), ("String", .scalar),
    ("Filter", .inputObject [("and", .named "Filter"), ("pet", .named "Pet")])]
  roots := { query := some "Query" }

/-- A document of which only the second operation has a variable. -/
def petText : String :=
  "query A \x7b a \x7d query B($filter: Filter!) \x7b a(filter: $filter) \x7d"

/-- Whether a field in the shape of a record may hold a union. -/
def Elm.Shape.holdsUnion (name : String) : Shape → Bool
  | .record fields =>
      match fields.lookup name with
      | some (.optional (.union _ _)) => true
      | _ => false
  | _ => false

/-- The first operation of the document has no variables, but the record of an input type that is
declared for the second one has not the shape of its encoder: what is a union in the record is
encoded as a scalar. -/
theorem petModule_inputs_differ : ∃ document m, Document.parse petText = .ok document ∧
    generate petSchema document zooOptions = .ok m ∧ m.typeNames.Nodup ∧
      (∃ operation ∈ document.operations, ∀ definition ∈ operation.definitions,
        petSchema.UnionFree definition.type.name) ∧
      ∃ input encoder record, (input, encoder) ∈ m.encoders ∧
        ⟨Text.capitalize input, [], [(Text.capitalize input, [record])]⟩ ∈ m.customTypes ∧
          m.shape record ≠ encoder.shape := by
  have evaluated : (Document.parse petText).toOption.any (fun document =>
      (generate petSchema document zooOptions).toOption.any fun m =>
        decide m.typeNames.Nodup &&
          (document.operations.any fun operation => operation.definitions.isEmpty) &&
          m.encoders.any fun entry => !entry.2.shape.holdsUnion "pet" &&
            m.customTypes.any fun type => type.name == Text.capitalize entry.1 &&
              type.wrapped?.any fun record => (m.shape record).holdsUnion "pet") = true := by
    decide +kernel
  cases parsed : Document.parse petText with
  | error cause =>
      rw [parsed] at evaluated
      exact nomatch evaluated
  | ok document =>
      rw [parsed] at evaluated
      cases generated : generate petSchema document zooOptions with
      | error cause => simp [Except.toOption, generated] at evaluated
      | ok m =>
          simp only [Except.toOption, generated, Option.any_some, Bool.and_eq_true,
            List.any_eq_true, decide_eq_true_eq, Bool.not_eq_true', List.isEmpty_iff,
            beq_iff_eq, Option.any_eq_true] at evaluated
          obtain ⟨⟨distinct, operation, among, bare⟩, ⟨input, encoder⟩, declared, scalar, type,
            custom, named, record, wrapped, united⟩ := evaluated
          rw [CustomType.eq_of_wrapped? wrapped, named] at custom
          refine ⟨document, m, rfl, generated, distinct, ⟨operation, among, ?_⟩, input, encoder,
            record, declared, custom, ?_⟩
          · rw [bare]
            exact fun definition absent => absurd absent List.not_mem_nil
          · intro same
            rw [same, scalar] at united
            exact Bool.false_ne_true united

end ElmClient
