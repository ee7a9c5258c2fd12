/-
Module: ElmClient.Proofs.Generation.CustomTypes
Purpose: The custom types and the encoders of a generated module: the types of the unions and of the
  enumerations of the inventory, and a type and an encoder for each input type that contains itself.
Main exports: CustomType, Module.customTypes, Module.typeNames, Module.encoders,
  BoundDocument.Assembles.customTypes, BoundDocument.Assembles.encoders
-/
import ElmClient.Proofs.Generation.Declarations

namespace ElmClient

open GraphQL Elm

namespace Elm

/-- A custom type: its name, its parameters, and its constructors with the types that they take. -/
structure CustomType where
  name : String
  parameters : List String
  constructors : List (String × List TypeExpr)

/-- What a custom type holds that has no parameters and a single constructor of its own name. -/
def CustomType.wrapped? : CustomType → Option TypeExpr
  | ⟨name, [], [(constructor, [inner])]⟩ => if constructor == name then some inner else none
  | _ => none

theorem CustomType.eq_of_wrapped? {type : CustomType} {inner : TypeExpr}
    (holds : type.wrapped? = some inner) : type = ⟨type.name, [], [(type.name, [inner])]⟩ := by
  unfold wrapped? at holds
  split at holds
  · split at holds
    · next same =>
        obtain rfl := Option.some.inj holds
        obtain rfl := eq_of_beq same
        rfl
    · exact absurd holds.symm (Option.some_ne_none _)
  · exact absurd holds.symm (Option.some_ne_none _)

/-- The custom type that is declared. -/
def Declaration.customType? : Declaration → Option CustomType
  | .customType name parameters constructors => some ⟨name, parameters, constructors⟩
  | _ => none

namespace Module

/-- The custom types in order. -/
def customTypes (m : Module) : List CustomType :=
  m.declarations.filterMap Declaration.customType?

/-- The input types and their encoders in order. -/
def encoders (m : Module) : List (String × Encoder) :=
  m.declarations.filterMap Declaration.encoder?

/-- The names that are declared for types: those of aliases and those of custom types. -/
def typeNames (m : Module) : List String :=
  m.typeAliases.map Prod.fst ++ m.customTypes.map (·.name)

theorem typeAliases_nodup {m : Module} (distinct : m.typeNames.Nodup) :
    (m.typeAliases.map Prod.fst).Nodup :=
  (List.nodup_append.mp distinct).1

theorem customTypes_nodup {m : Module} (distinct : m.typeNames.Nodup) :
    (m.customTypes.map (·.name)).Nodup :=
  (List.nodup_append.mp distinct).2.1

/-- Where names of types do not repeat, no alias has the name of a custom type. -/
theorem aliasType_customType {m : Module} (distinct : m.typeNames.Nodup) {type : CustomType}
    (member : type ∈ m.customTypes) : m.aliasType type.name = none := by
  apply Dictionary.lookup_eq_none_iff.mpr
  intro aliased
  have custom := List.mem_map_of_mem (f := CustomType.name) member
  exact (List.nodup_append.mp distinct).2.2 _ aliased _ custom rfl

/-- Where names of types do not repeat, there is one custom type of a name. -/
theorem customType_unique {m : Module} (distinct : m.typeNames.Nodup) {one two : CustomType}
    (first : one ∈ m.customTypes) (second : two ∈ m.customTypes) (same : one.name = two.name) :
    one = two := by
  have apart := customTypes_nodup distinct
  exact List.inj_on_of_nodup_map apart first second same

/-- Where each input type has one encoder, a look-up finds every one of them. -/
theorem encoder_of_mem {m : Module} (distinct : (m.encoders.map Prod.fst).Nodup) {input : String}
    {encoder : Encoder} (member : (input, encoder) ∈ m.encoders) :
    m.encoder input = some encoder := by
  have reversed : (m.encoders.reverse.map Prod.fst).Nodup := by
    rw [List.map_reverse]
    exact List.nodup_reverse.mpr distinct
  exact Dictionary.lookup_of_mem reversed (List.mem_reverse.mpr member)

end Module

end Elm

/-- The custom type of a union. -/
def unionType (name : String) (members : List String) : CustomType :=
  let parameters := (List.range members.length).map Name.typeParameter
  ⟨name, parameters, (members.zip parameters).map fun (member, parameter) =>
    (Name.unionConstructor name member, [.named parameter])⟩

/-- The custom type of an enumeration. -/
def Elm.EnumDeclaration.customType (enum : EnumDeclaration) : CustomType :=
  ⟨enum.typeName, [], enum.cases.map fun enumCase => (enumCase.constructor, [])⟩

/-- The record of an input type that contains itself. -/
def SharedInputs.record (shared : SharedInputs) (input : String) : TypeExpr :=
  (shared.types.record? input).getD (.closed [])

/-- The encoder of an input type that contains itself. -/
def SharedInputs.object (shared : SharedInputs) (input : String) : Encoder :=
  (shared.encoders.object? input).getD (.object [])

/-- The custom type of an input type that contains itself. -/
def SharedInputs.customType (shared : SharedInputs) (input : String) : CustomType :=
  ⟨Text.capitalize input, [], [(Text.capitalize input, [shared.record input])]⟩

namespace BoundDocument.Assembles

variable {bound : BoundDocument} {options : GenerationOptions} {m : Module}
  {inventory : Inventory} {plans : List (String × SelectionPlan)}
  {clients : List OperationClient} {shared : SharedInputs}

theorem customTypes (assembles : bound.Assembles options m inventory plans clients shared) :
    m.customTypes = inventory.unions.map (fun (name, members) => unionType name members) ++
      inventory.enums.map EnumDeclaration.customType ++
        shared.types.cycles.map shared.customType := by
  have unions := DeclarationGroup.filterMap_join_eq_map Declaration.customType?
    (fun (name, members) => DeclarationGroup.ofUnion name members)
    (fun (name, members) => unionType name members) (fun _ => rfl) inventory.unions
  have enums := DeclarationGroup.filterMap_join_eq_map Declaration.customType?
    DeclarationGroup.ofEnum EnumDeclaration.customType (fun _ => rfl) inventory.enums
  have inputs := DeclarationGroup.filterMap_join_eq_map Declaration.customType?
    (DeclarationGroup.ofRecursiveInput shared) shared.customType (fun _ => rfl)
    shared.types.cycles
  rw [Module.customTypes, assembles.declarations]
  simp only [List.filterMap_append, DeclarationGroup.join_ofFragment,
    DeclarationGroup.filterMap_join_ofOperation, List.filterMap_map, unions, enums, inputs]
  simp [Declaration.customType?, DeclarationGroup.plainAlias, Function.comp_def, List.filterMap_cons]

theorem encoders (assembles : bound.Assembles options m inventory plans clients shared) :
    m.encoders = shared.types.cycles.map fun input => (input, shared.object input) := by
  have inputs := DeclarationGroup.filterMap_join_eq_map Declaration.encoder?
    (DeclarationGroup.ofRecursiveInput shared) (fun input => (input, shared.object input))
    (fun _ => rfl) shared.types.cycles
  rw [Module.encoders, assembles.declarations]
  simp only [List.filterMap_append, DeclarationGroup.join_ofFragment,
    DeclarationGroup.filterMap_join_ofOperation, List.filterMap_map, inputs]
  rw [DeclarationGroup.filterMap_join_eq_nil (fun _ => rfl),
    DeclarationGroup.filterMap_join_eq_nil (fun _ => rfl)]
  simp [Declaration.encoder?, DeclarationGroup.plainAlias, Function.comp_def, List.filterMap_cons]

/-- The input types with encoders are those that contain themselves. -/
theorem encoders_fst (assembles : bound.Assembles options m inventory plans clients shared) :
    m.encoders.map Prod.fst = shared.types.cycles := by
  rw [assembles.encoders, List.map_map]
  exact List.map_id _

end BoundDocument.Assembles

end ElmClient
