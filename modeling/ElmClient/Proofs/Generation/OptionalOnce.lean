/-
Module: ElmClient.Proofs.Generation.OptionalOnce
Purpose: Nothing in a generated module is optional twice over. The layers of references never have
  two optional ones in a row, a directive that may remove a field adds none where there is one, and
  what is put in layers, remembered records and encoders included, is not optional itself.
Main exports: Module.OptionalOnce, RecordPlan.From.type_once, InputForm.once,
  Decoder.Regular.once, BoundDocument.Assembles.optionalOnce, references_optionalOnce
-/
import ElmClient.Elm.TypeText
import ElmClient.Proofs.Generation.Extensions
import ElmClient.Proofs.Generation.Presence
import ElmClient.Proofs.Layers
import ElmClient.Proofs.Response.Nullability

namespace ElmClient

open GraphQL Elm

namespace Elm

/-! ### Optional once -/

/-- A type that is not optional outside. -/
def TypeExpr.IsRequired : TypeExpr → Prop
  | .optional _ => False
  | _ => True

/-- A type that is not optional twice over. -/
def TypeExpr.OptionalOnce : TypeExpr → Prop
  | .optional inner => inner.IsRequired
  | _ => True

/-- An encoder that is not optional outside. -/
def Encoder.IsRequired : Encoder → Prop
  | .optional _ => False
  | _ => True

/-- An encoder that is not optional twice over. -/
def Encoder.OptionalOnce : Encoder → Prop
  | .optional inner => inner.IsRequired
  | _ => True

/-- A decoder that is not optional outside, nor below the keys that it reads first. -/
def Decoder.IsRequired : Decoder → Prop
  | .field _ decoder => decoder.IsRequired
  | .optional _ => False
  | _ => True

/-- A decoder that is not optional twice over, whatever keys are read in between. -/
def Decoder.OptionalOnce : Decoder → Prop
  | .optional inner => inner.IsRequired
  | _ => True

/-- The decoder that reads keys, each inside the one before, and then runs a decoder. -/
def Decoder.atKeys (wires : List String) (decoder : Decoder) : Decoder :=
  wires.foldr .field decoder

theorem Decoder.not_isRequired_atKeys (wires : List String) (inner : Decoder) :
    ¬ (Decoder.atKeys wires (.optional inner)).IsRequired := by
  induction wires with
  | nil => exact id
  | cons wire rest ih => exact ih

/-- A module in which nothing is optional twice over: no optional type or encoder stands right inside
an optional one, and no optional decoder does, right inside or below keys that are read. -/
structure Module.OptionalOnce (m : Module) : Prop where
  types : ∀ type ∈ m.types, ∀ inner, ¬ (TypeExpr.optional (.optional inner)).OccursIn type
  encoders : ∀ encoder ∈ m.allEncoders, ∀ inner,
    ¬ (Encoder.optional (.optional inner)).OccursIn encoder
  decoders : ∀ entry ∈ m.decoders, ∀ wires inner,
    ¬ (Decoder.optional (.atKeys wires (.optional inner))).OccursIn entry.2

/-! ### What is put in layers -/

/-- Separated layers around a type that is not optional add nothing that is optional twice over. -/
theorem TypeExpr.Each.wrap_once {layers : List Layer} (separated : Layer.Separated layers)
    {inner : TypeExpr} (bare : inner.IsRequired) (below : inner.Each TypeExpr.OptionalOnce) :
    (TypeExpr.wrap layers inner).Each TypeExpr.OptionalOnce :=
  separated.wrap (fun _ => trivial) (.list trivial) .optional bare below

/-- Separated layers around an encoder that is not optional add nothing that is optional twice
over. -/
theorem Encoder.Each.wrap_once {layers : List Layer} (separated : Layer.Separated layers)
    {inner : Encoder} (bare : inner.IsRequired) (below : inner.Each Encoder.OptionalOnce) :
    (Encoder.wrap layers inner).Each Encoder.OptionalOnce :=
  separated.wrap (fun _ => trivial) (.list trivial) .optional bare below

/-! ### Decoders -/

theorem Decoder.Regular.isRequired {decoder : Decoder} (regular : decoder.Regular .value) :
    decoder.IsRequired := by
  cases regular <;> trivial

/-- Nothing in a regular decoder is optional twice over: items and keys are what is optional, and
what they hold is not. -/
theorem Decoder.Regular.once {place : Decoder.Place} {decoder : Decoder}
    (regular : decoder.Regular place) : decoder.Each Decoder.OptionalOnce := by
  induction regular with
  | scalar _ => exact .scalar trivial
  | enum _ => exact .enum trivial
  | list _ ih => exact .list trivial ih
  | record _ _ ih => exact .record trivial ih
  | union _ ih =>
      refine .union trivial fun entry chosen field among node inside => ?_
      exact ih entry chosen node (.record among inside)
  | requiredItem _ ih => exact ih
  | optionalItem regular ih => exact .optional regular.isRequired ih
  | requiredKey _ _ ih => exact .field trivial ih
  | optionalKey _ regular ih => exact .optional regular.isRequired (.field trivial ih)

end Elm

/-! ### Types of plans -/

/-- The layers of a selected field are separated, whatever directives it has. -/
theorem GraphQL.Field.separated_layers (field : Field) (type : TypeRef) :
    Layer.Separated (field.layers type) := by
  unfold GraphQL.Field.layers
  split
  · exact type.separated_layers.makeOptional
  · exact type.separated_layers

theorem Elm.TypeExpr.IsRecord.isRequired {type : TypeExpr} (isRecord : type.IsRecord) :
    type.IsRequired := by
  cases isRecord <;> trivial

/-- What a field holds, without its layers, is not optional. -/
theorem FieldKind.isRequired_type (kind : FieldKind) : kind.type.IsRequired := by
  cases kind with
  | leaf scalar => trivial
  | enum name => trivial
  | object plan => exact (RecordPlan.type_isRecord none plan).isRequired
  | union plan =>
      obtain ⟨name, members, variants⟩ := plan
      trivial

section Plans

variable {bound : BoundDocument} {holds : List Layer → Field → List Directive → Prop}

mutual

/-- Nothing in the type of a record is optional twice over if its fields come from selections. -/
theorem RecordPlan.From.type_once (row : Option String) :
    ∀ {source plan}, RecordPlan.From bound holds source plan →
      (RecordPlan.type row plan).Each TypeExpr.OptionalOnce
  | _, ⟨fields, spreads⟩, .mk each => by
      refine extendBy_each (fun _ _ _ => trivial) (.record trivial ?_)
      rw [FieldPlan.ownTypes_eq]
      intro entry among
      obtain ⟨field, own, rfl⟩ := List.mem_map.mp among
      exact (each field (List.mem_filter.mp own).1).type_once

/-- The same of a field. -/
theorem FieldPlan.From.type_once :
    ∀ {source field}, FieldPlan.From bound holds source field →
      (FieldPlan.type field).Each TypeExpr.OptionalOnce
  | _, field, .mk _ _ _ layered _ inside => by
      have separated : Layer.Separated field.layers := layered ▸ Field.separated_layers _ _
      exact .wrap_once separated field.kind.isRequired_type inside.type_once

/-- The same of what a field holds. -/
theorem FieldKind.From.type_once :
    ∀ {type below kind}, FieldKind.From bound holds type below kind →
      kind.type.Each TypeExpr.OptionalOnce
  | _, _, _, .leaf _ => .scalar trivial
  | _, _, _, .enum _ => .enum trivial
  | _, _, _, .object inside => inside.type_once none
  | _, _, _, .union inside => by
      refine .union trivial (unionArguments_each trivial ?_)
      rw [UnionPlan.types_eq]
      intro entry among
      obtain ⟨variant, there, rfl⟩ := List.mem_map.mp among
      exact (inside variant there).type_once none

end

end Plans

/-! ### Types and encoders of variables -/

section Inputs

variable {schema : Schema} {cycles : List String} {name : String} {type : TypeExpr}
  {encoder : Encoder}

theorem InputForm.isRequired (form : InputForm schema cycles name type encoder) :
    type.IsRequired ∧ encoder.IsRequired := by
  cases form <;> exact ⟨trivial, trivial⟩

/-- Nothing in a type and an encoder of one form is optional twice over. -/
theorem InputForm.once (form : InputForm schema cycles name type encoder) :
    type.Each TypeExpr.OptionalOnce ∧ encoder.Each Encoder.OptionalOnce := by
  induction form with
  | scalar => exact ⟨.scalar trivial, .scalar trivial⟩
  | enum => exact ⟨.enum trivial, .enum trivial⟩
  | union => exact ⟨.union trivial (memberTypes_each (fun _ => trivial) _), .scalar trivial⟩
  | cut => exact ⟨.named trivial, .named trivial⟩
  | object slots _ each ih =>
      constructor
      · refine .record trivial fun field among => ?_
        obtain ⟨slot, member, rfl⟩ := List.mem_map.mp among
        exact .wrap_once slot.type.separated_layers (each slot member).isRequired.1
          (ih slot member).1
      · refine .object trivial fun field among => ?_
        obtain ⟨slot, member, rfl⟩ := List.mem_map.mp among
        exact .wrap_once slot.type.separated_layers (each slot member).isRequired.2
          (ih slot member).2

/-- Nor is anything in the type and the encoder of a variable. -/
theorem InputSlot.once {slot : InputSlot}
    (form : InputForm schema cycles slot.type.name slot.elm slot.encoder) :
    slot.field.2.Each TypeExpr.OptionalOnce ∧ slot.encoded.encoder.Each Encoder.OptionalOnce :=
  ⟨.wrap_once slot.type.separated_layers form.isRequired.1 form.once.1,
    .wrap_once slot.type.separated_layers form.isRequired.2 form.once.2⟩

end Inputs

/-! ### Modules -/

namespace BoundDocument.Assembles

variable {bound : BoundDocument} {options : GenerationOptions} {m : Module}
  {inventory : Inventory} {plans : List (String × SelectionPlan)}
  {clients : List OperationClient} {shared : SharedInputs}

theorem fragments_once (assembles : bound.Assembles options m inventory plans clients shared) :
    ∀ fragment ∈ m.fragments, fragment.type.Each TypeExpr.OptionalOnce := by
  intro fragment member
  obtain ⟨name, _, _, plan, planned, rfl⟩ := assembles.declares.mem_of_fragment member
  obtain ⟨_, _, _, derived⟩ := fragmentPlanned planned
  cases plan with
  | record record => exact derived.from_empty.type_once _
  | union union =>
      obtain ⟨members, draft, _, drafted, rfl⟩ := derived
      exact (FieldKind.From.union drafted.from_empty).type_once

theorem result_once {operation : Operation} {client : OperationClient}
    (made : bound.ClientOf operation client) : client.result.Each TypeExpr.OptionalOnce := by
  obtain ⟨plan, planned, result, _⟩ := made.planned
  obtain ⟨_, _, derived⟩ := operationPlanned planned
  rw [result]
  exact derived.from_empty.type_once none

theorem types_once (assembles : bound.Assembles options m inventory plans clients shared) :
    ∀ type ∈ m.types, type.Each TypeExpr.OptionalOnce :=
  assembles.types_each (fun _ => trivial) (fun _ => trivial) (fun _ _ => trivial)
    (fun _ _ => trivial) assembles.fragments_once (fun _ _ _ made => result_once made)
    (fun _ _ _ _ takes slot member => (InputSlot.once (takes.forms slot member)).1)
    (fun _ cyclic => (assembles.recursive cyclic).form.once.1)

theorem encoders_once (assembles : bound.Assembles options m inventory plans clients shared) :
    ∀ encoder ∈ m.allEncoders, encoder.Each Encoder.OptionalOnce :=
  assembles.encoders_each
    (fun _ _ _ _ takes slot member => (InputSlot.once (takes.forms slot member)).2)
    (fun _ cyclic => (assembles.recursive cyclic).form.once.2)

/-- Nothing in a module is optional twice over. -/
theorem optionalOnce (assembles : bound.Assembles options m inventory plans clients shared) :
    m.OptionalOnce where
  types type member _ inside := assembles.types_once type member _ inside
  encoders encoder member _ inside := assembles.encoders_once encoder member _ inside
  decoders entry member wires inner inside :=
    Decoder.not_isRequired_atKeys wires inner
      ((assembles.declares.regular_of_mem entry member).once _ inside)

end BoundDocument.Assembles

/-- The layers of a reference and the name inside determine the reference. No two optional layers
follow one another in them, nor after an optional layer is put outside, which happens once, or taken
away. So whatever the types of fields and variables are, and whatever directives fields have, nothing
in a module that is generated is optional twice over. -/
theorem references_optionalOnce :
    (∀ type : TypeRef, type.isProper = true → TypeRef.ofLayers type.name type.layers = type) ∧
    (∀ one other : TypeRef, one.isProper = true → other.isProper = true →
      one.layers = other.layers → one.name = other.name → one = other) ∧
    (∀ type : TypeRef, Layer.Separated type.layers) ∧
    (∀ layers, Layer.Separated layers →
      Layer.Separated (Layer.makeOptional layers) ∧ Layer.Separated (Layer.makeRequired layers)) ∧
    (∀ layers, Layer.makeOptional (Layer.makeOptional layers) = Layer.makeOptional layers ∧
      Layer.makeRequired (Layer.makeOptional layers) = Layer.makeRequired layers) ∧
    ∀ schema document options m, generate schema document options = .ok m → m.OptionalOnce := by
  refine ⟨fun _ => TypeRef.ofLayers_layers, fun _ _ => TypeRef.eq_of_layers_eq,
    TypeRef.separated_layers, ?_, ?_, ?_⟩
  · exact fun layers separated => ⟨separated.makeOptional, separated.makeRequired⟩
  · exact fun layers =>
      ⟨Layer.makeOptional_makeOptional layers, Layer.makeRequired_makeOptional layers⟩
  · intro schema document options m generated
    obtain ⟨_, _, _, _, _, _, assembles⟩ := generate_assembles generated
    exact assembles.optionalOnce

/-! ### Shelves of books

Lists of books and notes may be missing at every level, some of what is selected may be left out by
a directive, and the variable is a list of filters that hold lists of filters. -/

/-- A schema with lists inside lists, and with an input type that contains itself. -/
def shelfSchema : Schema where
  types := [("String", .scalar), ("Boolean", .scalar),
    ("Query", .object [("books", .list (.named "Book")), ("owner", .nonNull (.named "String"))]),
    ("Book", .object [("notes", .list (.nonNull (.list (.named "String"))))]),
    ("Filter", .inputObject [("and", .list (.named "Filter"))])]
  roots := { query := some "Query" }

/-- A document about the schema. -/
def shelfText : String :=
  "query Shelf($filters: [Filter], $some: Boolean!) \x7b " ++
    "books(filters: $filters) @include(if: $some) \x7b notes @skip(if: $some) \x7d " ++
      "owner @include(if: $some) \x7d"

/-- The type of the result. -/
def shelfType : String :=
  "\x7b books : Maybe (List (Maybe \x7b notes : Maybe (List (List (Maybe String))) \x7d)), " ++
    "owner : Maybe String \x7d"

theorem exists_shelfModule : ∃ document m, Document.parse shelfText = .ok document ∧
    generate shelfSchema document zooOptions = .ok m ∧
      ∃ entry ∈ m.typeAliases, entry.1 = "Shelf" ∧ entry.2.text = shelfType := by
  have evaluated : (Document.parse shelfText).toOption.any (fun document =>
      (generate shelfSchema document zooOptions).toOption.any fun m =>
        m.typeAliases.any fun entry => entry.1 == "Shelf" && entry.2.text == shelfType) = true := by
    decide +kernel
  obtain ⟨document, parsed, evaluated⟩ := Except.any_toOption.mp evaluated
  obtain ⟨m, generated, evaluated⟩ := Except.any_toOption.mp evaluated
  simp only [List.any_eq_true, Bool.and_eq_true, beq_iff_eq] at evaluated
  exact ⟨document, m, parsed, generated, evaluated⟩

/-- A list of numbers is found again from its layers, and marking it once more changes nothing. On the
shelf all that may be missing is optional once, whether a directive may leave it out or not. -/
theorem shelf_optionalOnce :
    ((TypeRef.list (.named "Int")).layers = [.optional, .list, .optional] ∧
      (TypeRef.nonNull (.list (.nonNull (.named "Int")))).layers = [.list]) ∧
    TypeRef.ofLayers "Int" [.optional, .list, .optional] = .list (.named "Int") ∧
    (TypeRef.list (.named "Int")).required.required = (TypeRef.list (.named "Int")).required ∧
    Layer.Separated (Layer.makeRequired [.optional, .list, .optional]) ∧
    ∃ document m, Document.parse shelfText = .ok document ∧
      generate shelfSchema document zooOptions = .ok m ∧
        (∃ entry ∈ m.typeAliases, entry.1 = "Shelf" ∧ entry.2.text = shelfType) ∧
          m.OptionalOnce := by
  obtain ⟨restored, determined, separated, kept, _, once⟩ := references_optionalOnce
  obtain ⟨document, m, parsed, generated, typed⟩ := exists_shelfModule
  have listed := separated (.list (.named "Int"))
  exact ⟨⟨rfl, rfl⟩, restored (.list (.named "Int")) rfl, determined _ _ rfl rfl rfl rfl,
    (kept _ listed).2, document, m, parsed, generated, typed, once _ _ _ _ generated⟩

end ElmClient
