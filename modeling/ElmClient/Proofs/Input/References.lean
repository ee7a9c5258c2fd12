/-
Module: ElmClient.Proofs.Input.References
Purpose: The names in the Elm types and encoders of input types: enumerations to which fields lead
  from the types of the variables, and input types at which the searches were cut. Whatever was
  written out first and remembered, every such name is reached from a variable.
Main exports: TypeExpr.InputName, Encoder.InputName, InputForm.names, InputTypes.reaches_of_cycle,
  BoundDocument.Assembles.reaches_of_cycle
-/
import ElmClient.Proofs.Elm.References
import ElmClient.Proofs.Input.Clients

namespace ElmClient

open GraphQL Elm

theorem Schema.Reaches.trans {schema : Schema} {first second third : String}
    (one : schema.Reaches first second) (two : schema.Reaches second third) :
    schema.Reaches first third := by
  induction one with
  | refl _ => exact two
  | field held member _ ih => exact .field held member (ih two)

/-- The enumeration of a schema to which fields lead from a type. -/
def Schema.ReachesEnum (schema : Schema) (name enum : String) : Prop :=
  schema.Reaches name enum ∧ ∃ values, schema.get? enum = some (.enum values)

/-- The name in a type, if it is that of an enumeration, is reached from a type of the schema. No
fragment is extended. -/
def Elm.TypeExpr.InputName (schema : Schema) (name : String) : TypeExpr → Prop
  | .enum target => schema.ReachesEnum name target
  | .extend _ _ => False
  | _ => True

/-- The name in an encoder is that of an enumeration that is reached from a type of the schema, or
one at which the searches were cut. -/
def Elm.Encoder.InputName (schema : Schema) (cycles : List String) (name : String) :
    Encoder → Prop
  | .enum target => schema.ReachesEnum name target
  | .named input => input ∈ cycles
  | _ => True

section Forms

variable {schema : Schema} {cycles : List String} {name : String} {type : TypeExpr}
  {encoder : Encoder}

theorem Elm.TypeExpr.Each.inputName {target : String} (reached : schema.Reaches name target)
    (each : type.Each (TypeExpr.InputName schema target)) :
    type.Each (TypeExpr.InputName schema name) := by
  intro node inside
  have holds := each node inside
  cases node with
  | enum _ => exact ⟨reached.trans holds.1, holds.2⟩
  | extend => exact holds
  | _ => trivial

theorem Elm.Encoder.Each.inputName {target : String} (reached : schema.Reaches name target)
    (each : encoder.Each (Encoder.InputName schema cycles target)) :
    encoder.Each (Encoder.InputName schema cycles name) := by
  intro node inside
  have holds := each node inside
  cases node with
  | enum _ => exact ⟨reached.trans holds.1, holds.2⟩
  | named _ => exact holds
  | _ => trivial

theorem memberTypes_each {holds : TypeExpr → Prop} (named : ∀ name, holds (.named name))
    (members : List String) : ∀ argument ∈ memberTypes members, argument.2.Each holds := by
  intro argument among
  obtain ⟨member, _, rfl⟩ := List.mem_map.mp among
  exact .named (named _)

/-- A type and an encoder of one form only have names that are reached from its type. -/
theorem InputForm.names (form : InputForm schema cycles name type encoder) :
    type.Each (TypeExpr.InputName schema name) ∧
      encoder.Each (Encoder.InputName schema cycles name) := by
  induction form with
  | scalar => exact ⟨.scalar trivial, .scalar trivial⟩
  | enum body => exact ⟨.enum ⟨.refl _, _, body⟩, .enum ⟨.refl _, _, body⟩⟩
  | union =>
      exact ⟨.union trivial (memberTypes_each (fun _ => trivial) _), .scalar trivial⟩
  | cut member => exact ⟨.named trivial, .named member⟩
  | object slots held _ ih =>
      have reached {slot : InputSlot} (member : slot ∈ slots) :
          schema.Reaches _ slot.type.name :=
        .field held (List.mem_map_of_mem member) (.refl _)
      constructor
      · refine .record trivial fun field among => ?_
        obtain ⟨slot, member, rfl⟩ := List.mem_map.mp among
        exact .wrap (fun _ => trivial) (fun _ => trivial) _
          ((ih slot member).1.inputName (reached member))
      · refine .object trivial fun field among => ?_
        obtain ⟨slot, member, rfl⟩ := List.mem_map.mp among
        exact .wrap (fun _ => trivial) (fun _ => trivial) _
          ((ih slot member).2.inputName (reached member))

end Forms

/-! ### Where the searches are cut -/

/-- A search visits the fields of a type, and cuts only at types that are reached from theirs. -/
theorem InputTypes.mapFields_cycles {schema : Schema} {depth : Nat} {path : List String}
    (step : ∀ {name types input},
      input ∈ (typeOfName schema depth path name types).2.cycles →
        input ∈ types.cycles ∨ schema.Reaches name input)
    {fields : List (String × TypeRef)} {types : InputTypes} {input : String}
    (member : input ∈ (types.mapFields (fieldType schema depth path) fields).2.cycles) :
    input ∈ types.cycles ∨ ∃ field ∈ fields, schema.Reaches field.2.name input := by
  induction fields generalizing types with
  | nil => exact Or.inl member
  | cons first rest ih =>
      rcases ih member with before | ⟨field, among, reached⟩
      · rcases step before with earlier | here
        · exact Or.inl earlier
        · exact Or.inr ⟨first, List.mem_cons_self, here⟩
      · exact Or.inr ⟨field, List.mem_cons_of_mem _ among, reached⟩

theorem InputTypes.typeOfName_of_fieldless {schema : Schema} {name : String}
    (fieldless : schema.fields? name = none) (depth : Nat) (path : List String)
    (types : InputTypes) : (typeOfName schema (depth + 1) path name types).2 = types := by
  cases found : schema.get? name with
  | none => simp only [typeOfName, found]
  | some body =>
      rw [Schema.fields?, found, Option.bind_some] at fieldless
      cases body with
      | scalar | enum | union => simp only [typeOfName, found]
      | object | interface | inputObject => exact absurd fieldless (Option.some_ne_none _)

/-- A search for a type cuts only at types that are reached from it. -/
theorem InputTypes.reaches_of_cycle {schema : Schema} (depth : Nat) :
    ∀ {path name types input}, input ∈ (typeOfName schema depth path name types).2.cycles →
      input ∈ types.cycles ∨ schema.Reaches name input := by
  induction depth with
  | zero => exact fun member => Or.inl member
  | succ depth ih =>
      intro path name types input member
      cases held : schema.fields? name with
      | none =>
          rw [typeOfName_of_fieldless held] at member
          exact Or.inl member
      | some fields =>
          rw [typeOfName_of_fields held] at member
          split at member
          · exact Or.inl member
          · split at member
            · rcases of_mem_addCycle member with earlier | rfl
              · exact Or.inl earlier
              · exact Or.inr (.refl _)
            · rcases mapFields_cycles ih member with earlier | ⟨field, among, reached⟩
              · exact Or.inl earlier
              · exact Or.inr (.field held among reached)

namespace BoundDocument

variable {bound : BoundDocument} {options : GenerationOptions} {m : Module}
  {inventory : Inventory} {plans : List (String × SelectionPlan)}
  {clients : List OperationClient} {shared : SharedInputs}

theorem foldl_add_cycles {schema : Schema} {resultType : String}
    (definitions : List VariableDefinition) {state : VariableParts × SharedInputs} {input : String}
    (member : input ∈
      (definitions.foldl (VariableParts.add schema resultType) state).2.types.cycles) :
    input ∈ state.2.types.cycles ∨
      ∃ definition ∈ definitions, schema.Reaches definition.type.name input := by
  induction definitions generalizing state with
  | nil => exact Or.inl member
  | cons first rest ih =>
      rcases ih member with before | ⟨definition, among, reached⟩
      · have found : input ∈ (state.2.types.typeOfName schema (schema.types.length + 1) []
            first.type.name).2.cycles := before
        rcases InputTypes.reaches_of_cycle _ found with earlier | here
        · exact Or.inl earlier
        · exact Or.inr ⟨first, List.mem_cons_self, here⟩
      · exact Or.inr ⟨definition, List.mem_cons_of_mem _ among, reached⟩

theorem operationClients_cycles {operations : List Operation} {shared later : SharedInputs}
    {clients : List OperationClient} {input : String}
    (succeeded : bound.operationClients options operations shared = .ok (clients, later))
    (member : input ∈ later.types.cycles) :
    input ∈ shared.types.cycles ∨ ∃ operation ∈ operations,
      ∃ definition ∈ operation.definitions, bound.schema.Reaches definition.type.name input := by
  induction operations generalizing shared later clients with
  | nil =>
      obtain ⟨rfl, rfl⟩ := Prod.mk.inj (Except.ok.inj succeeded)
      exact Or.inl member
  | cons first rest ih =>
      obtain ⟨⟨client, between⟩, made, others⟩ := Except.bind_eq_ok.mp succeeded
      obtain ⟨⟨clients', last⟩, followed, same⟩ := Except.bind_eq_ok.mp others
      obtain ⟨rfl, rfl⟩ := Prod.mk.inj (Except.pure_eq_ok.mp same)
      rcases ih followed member with before | ⟨operation, among, definition, defined, reached⟩
      · obtain ⟨kind, _, planning⟩ := Except.bind_eq_ok.mp made
        obtain ⟨plan, _, printing⟩ := Except.bind_eq_ok.mp planning
        obtain ⟨queryText, _, same⟩ := Except.bind_eq_ok.mp printing
        obtain ⟨rfl, rfl⟩ := Prod.mk.inj (Except.pure_eq_ok.mp same)
        rcases foldl_add_cycles _ before with earlier | here
        · exact Or.inl earlier
        · exact Or.inr ⟨first, List.mem_cons_self, here⟩
      · exact Or.inr ⟨operation, List.mem_cons_of_mem _ among, definition, defined, reached⟩

/-- Every input type for which a module declares an encoder is reached from a variable. -/
theorem Assembles.reaches_of_cycle
    (assembles : bound.Assembles options m inventory plans clients shared) {input : String}
    (member : input ∈ shared.types.cycles) : ∃ operation ∈ bound.operations,
      ∃ definition ∈ operation.definitions, bound.schema.Reaches definition.type.name input := by
  rcases operationClients_cycles assembles.made member with absent | reached
  · exact absurd absent List.not_mem_nil
  · exact reached

end BoundDocument

end ElmClient
