/-
Module: ElmClient.Proofs.Generation.Names
Purpose: The names that a generated module declares are those of the unions, enumerations,
  fragments, operations and input types for which it is generated. So they are identifiers exactly
  if these fit, and where base names are apart, they differ exactly if these are told apart.
Main exports: Module.NamesLegal, Module.NamesDistinct, BoundDocument.nameSources,
  BoundDocument.Assembles.names_perm, generate_names
-/
import ElmClient.Proofs.Generation.Extensions
import ElmClient.Proofs.Generation.NameSources
import ElmClient.Proofs.QueryText.Legality
import ElmClient.Proofs.Schema.Naming

namespace ElmClient

open GraphQL Elm
open Text (capitalize decapitalize)

/-! ### Declared names -/

namespace Elm

namespace Declaration

/-- The types that a declaration names. -/
def typeNames : Declaration → List String
  | .typeAlias name _ _ | .customType name _ _ => [name]
  | .fragment declared =>
      declared.name :: if declared.isOpen then [Name.openAlias declared.name] else []
  | .constant _ _ _ | .request _ | .decoder _ _ _ | .encoder _ _ | .enumDecoder _ => []

/-- The constructors that a declaration names. -/
def constructorNames : Declaration → List String
  | .customType _ _ constructors => constructors.map Prod.fst
  | .typeAlias _ _ _ | .fragment _ | .constant _ _ _ | .request _ | .decoder _ _ _
  | .encoder _ _ | .enumDecoder _ => []

/-- The values that a declaration names. -/
def valueNames : Declaration → List String
  | .constant name _ _ | .decoder name _ _ => [name]
  | .request sent => [sent.functionName]
  | .encoder input _ => [Name.encoder input]
  | .enumDecoder enum => [Name.enumDecoder enum.name]
  | .typeAlias _ _ _ | .customType _ _ _ | .fragment _ => []

end Declaration

namespace Module

/-- The names of all types. -/
def allTypeNames (m : Module) : List String := m.declarations.flatMap Declaration.typeNames

/-- The names of all constructors. -/
def allConstructorNames (m : Module) : List String :=
  m.declarations.flatMap Declaration.constructorNames

/-- The names of all values at the top level. -/
def allValueNames (m : Module) : List String := m.declarations.flatMap Declaration.valueNames

/-- Every name is an identifier of its class. -/
structure NamesLegal (m : Module) : Prop where
  values : ∀ name ∈ m.allValueNames, IsValueName name
  types : ∀ name ∈ m.allTypeNames, IsTypeName name
  constructors : ∀ name ∈ m.allConstructorNames, IsTypeName name

/-- No name is declared twice in its class. -/
structure NamesDistinct (m : Module) : Prop where
  values : m.allValueNames.Nodup
  types : m.allTypeNames.Nodup
  constructors : m.allConstructorNames.Nodup

end Module

/-- A group of declarations names what a source does. -/
structure NamesOf (source : NameSource) (group : List Declaration) : Prop where
  types : group.flatMap Declaration.typeNames = source.typeNames
  constructors : group.flatMap Declaration.constructorNames = source.constructorNames
  values : group.flatMap Declaration.valueNames = source.valueNames

end Elm

/-! ### Sources of names -/

/-- An operation, with those variables whose types have a declaration. -/
def GraphQL.Operation.nameSource (schema : Schema) (operation : Operation) : NameSource :=
  .operation operation.title (!operation.definitions.isEmpty)
    ((operation.definitions.filter fun definition => schema.isDeclared definition.type.name).map
      (·.name))

/-- Whether a fragment of the document is about no union, so that it leaves room for fields. -/
def BoundDocument.isOpenFragment (bound : BoundDocument) (name : String) : Bool :=
  (bound.fragment? name).any fun fragment =>
    (bound.schema.unionMembers? fragment.condition.type).isNone

/-- What a module declares names for: what an inventory has, the operations of the document, and
input types that contain themselves. -/
def BoundDocument.nameSources (bound : BoundDocument) (inventory : Inventory)
    (inputs : List String) : List NameSource :=
  inventory.unions.map (fun (name, members) => .union name members) ++
    inventory.enums.map (fun enum => .enum enum.name (enum.cases.map (·.wire))) ++
      inventory.fragments.map (fun name => .fragment name (bound.isOpenFragment name)) ++
        bound.operations.map (·.nameSource bound.schema) ++ inputs.map .input

theorem namesOf_union (name : String) (members : List String) :
    NamesOf (.union name members) (DeclarationGroup.ofUnion name members).declarations where
  types := rfl
  constructors := (List.flatMap_singleton _ _).trans (unionType_constructors name members)
  values := rfl

theorem namesOf_enum (name : String) (values : List String) :
    NamesOf (.enum name ((EnumDeclaration.ofValues name values).cases.map (·.wire)))
      ((DeclarationGroup.ofEnum (.ofValues name values)).declarations ++
        [.enumDecoder (.ofValues name values)]) where
  types := rfl
  constructors := by
    simp [DeclarationGroup.ofEnum, EnumDeclaration.ofValues, Declaration.constructorNames,
      NameSource.constructorNames, Function.comp_def]
  values := rfl

theorem namesOf_input (shared : SharedInputs) (input : String) :
    NamesOf (.input input) (DeclarationGroup.ofRecursiveInput shared input).declarations :=
  ⟨rfl, rfl, rfl⟩

namespace BoundDocument

variable {bound : BoundDocument} {options : GenerationOptions} {m : Module}
  {inventory : Inventory} {plans : List (String × SelectionPlan)}
  {clients : List OperationClient} {shared : SharedInputs}

theorem namesOf_fragment {name : String} (legal : isName name = true)
    {entry : String × SelectionPlan} (succeeded : bound.declaredFragmentPlan name = .ok entry) :
    NamesOf (.fragment name (bound.isOpenFragment name))
      [.fragment (entry.2.declaration entry.1)] where
  types := by
    obtain ⟨fragment, found, rfl, openly, _⟩ := declaredFragmentPlan_eq_ok succeeded
    have same : (entry.2.declaration entry.1).isOpen = bound.isOpenFragment entry.1 := by
      rw [isOpenFragment, found, Option.any_some, Bool.eq_iff_iff, openly,
        Option.isNone_iff_eq_none]
    have twice : Name.openAlias (capitalize entry.1) = Name.openAlias entry.1 := by
      rw [Name.openAlias, Text.capitalize_capitalize (Text.isWord_of_isName legal), Name.openAlias]
    simp [Declaration.typeNames, NameSource.typeNames, SelectionPlan.declaration_name, same, twice]
  constructors := rfl
  values := rfl

theorem namesOf_operation {cycles : List String} {operation : Operation} {client : OperationClient}
    (made : bound.ClientOf operation client) {slots : List InputSlot}
    (takes : client.Takes bound.schema cycles operation slots) :
    NamesOf (operation.nameSource bound.schema)
      (DeclarationGroup.ofOperation client).declarations := by
  have inputs : client.inputs.map Prod.fst =
      ((operation.definitions.filter fun definition =>
        bound.schema.isDeclared definition.type.name).map (·.name)).map fun name =>
          capitalize operation.title ++ "_Input_" ++ capitalize name := by
    have declared := congrArg (fun entries => (entries.filter fun entry =>
      bound.schema.isDeclared entry.2.name).map fun entry =>
        capitalize operation.title ++ "_Input_" ++ capitalize entry.1) takes.declared
    simp only [List.filter_map, List.map_map] at declared
    rw [takes.inputs, made.resultType, List.map_map, List.map_map]
    exact declared
  have parameters : client.request.parametersType.toList =
      if !operation.definitions.isEmpty then [capitalize operation.title ++ "_Input"] else [] := by
    have together := congrArg List.isEmpty takes.declared
    rw [List.isEmpty_map, List.isEmpty_map] at together
    rw [takes.parametersType, together, made.resultType]
    cases operation.definitions.isEmpty <;> rfl
  have aliases : client.aliases.map Prod.fst = (operation.nameSource bound.schema).typeNames := by
    rw [Operation.nameSource, NameSource.typeNames, ← inputs, ← parameters, OperationClient.aliases,
      made.resultType]
    simp [Function.comp_def]
  rw [DeclarationGroup.ofOperation_declarations]
  refine ⟨?_, ?_, ?_⟩
  · rw [← aliases, List.flatMap_append, List.flatMap_map, List.map_eq_flatMap]
    exact List.append_nil _
  · simp [List.flatMap_map, DeclarationGroup.plainAlias, Declaration.constructorNames,
      Operation.nameSource, NameSource.constructorNames]
  · simp [List.flatMap_map, DeclarationGroup.plainAlias, Declaration.valueNames,
      Operation.nameSource, NameSource.valueNames, made.functionName, made.decoderName]

/-- What comes last may stand beside what it belongs to, and a single item first. -/
theorem perm_of_paired {α : Type} (before : List α) (item : α) (after : List α)
    {first last both : List α} (paired : both.Perm (first ++ last)) :
    (before ++ first ++ [item] ++ after ++ last).Perm (item :: (before ++ both ++ after)) := by
  have moved : (before ++ first ++ (after ++ last)).Perm (before ++ both ++ after) := by
    rw [List.append_assoc, List.append_assoc]
    refine List.Perm.append_left before ?_
    have swapped := (@List.perm_append_comm _ after last).append_left first
    rw [← List.append_assoc first last] at swapped
    exact swapped.trans (paired.symm.append_right after)
  have single : before ++ first ++ [item] ++ after ++ last =
      before ++ first ++ item :: (after ++ last) := by simp
  rw [single]
  exact List.perm_middle.trans (moved.cons item)

/-- The declarations of a module in groups, one for each source of names. -/
def nameGroups (inventory : Inventory) (plans : List (String × SelectionPlan))
    (clients : List OperationClient) (shared : SharedInputs) : List (List Declaration) :=
  inventory.unions.map (fun (name, members) =>
      (DeclarationGroup.ofUnion name members).declarations) ++
    inventory.enums.map (fun enum =>
      (DeclarationGroup.ofEnum enum).declarations ++ [.enumDecoder enum]) ++
      plans.map (fun entry => [.fragment (entry.2.declaration entry.1)]) ++
        clients.map (fun client => (DeclarationGroup.ofOperation client).declarations) ++
          shared.types.cycles.map fun input =>
            (DeclarationGroup.ofRecursiveInput shared input).declarations

/-- Each group names what its source does. -/
theorem Assembles.namesOf_groups
    (assembles : bound.Assembles options m inventory plans clients shared)
    (legal : ∀ name ∈ inventory.fragments, isName name = true) :
    List.Forall₂ NamesOf (bound.nameSources inventory (m.encoders.map Prod.fst))
      (nameGroups inventory plans clients shared) := by
  have enumsOf := (inventory_sound assembles.collected).enumsOf
  have taken := (operationClients_takes (Aligned.empty bound.schema) assembles.made).2.2
  rw [nameSources, assembles.encoders_fst]
  refine List.rel_append (List.rel_append (List.rel_append (List.rel_append ?_ ?_) ?_) ?_) ?_
  all_goals rw [List.forall₂_map_left_iff, List.forall₂_map_right_iff]
  · exact List.forall₂_same.mpr fun union _ => namesOf_union union.1 union.2
  · refine List.forall₂_same.mpr fun enum member => ?_
    obtain ⟨values, _, same⟩ := enumsOf.ofSchema enum member
    rw [same]
    exact namesOf_enum enum.name values
  · refine Forall₂.imp_of_mem assembles.declares.planned fun name member entry planned => ?_
    exact namesOf_fragment (legal name member) planned
  · refine taken.imp fun operation client both => ?_
    obtain ⟨made, slots, takes⟩ := both
    exact namesOf_operation made takes
  · exact List.forall₂_same.mpr fun input _ => namesOf_input shared input

/-- The declarations of a module are, but for their order, the constant and the groups: the decoders
of enumerations come last, and the constant comes behind their types. -/
theorem Assembles.declarations_perm
    (assembles : bound.Assembles options m inventory plans clients shared) :
    m.declarations.Perm (.constant "endpointUrl" (.scalar .string) options.endpoint ::
      (nameGroups inventory plans clients shared).flatten) := by
  have paired := (List.flatMap_append_perm inventory.enums
    (fun enum => (DeclarationGroup.ofEnum enum).declarations)
    (fun enum => [Declaration.enumDecoder enum])).symm
  have moved := perm_of_paired
    (inventory.unions.flatMap fun union => (DeclarationGroup.ofUnion union.1 union.2).declarations)
    (.constant "endpointUrl" (.scalar .string) options.endpoint)
    ((plans.flatMap fun entry => [.fragment (entry.2.declaration entry.1)]) ++
      (clients.flatMap fun client => (DeclarationGroup.ofOperation client).declarations) ++
        shared.types.cycles.flatMap fun input =>
          (DeclarationGroup.ofRecursiveInput shared input).declarations) paired
  rw [assembles.declarations, DeclarationGroup.join_ofFragment, nameGroups]
  simp only [DeclarationGroup.join_map_declarations, List.flatten_append, ← List.flatMap_def]
  simpa only [List.map_eq_flatMap, List.append_assoc] using moved

/-- What a module names is what the sources name, and the address of the server. -/
theorem Assembles.names_perm
    (assembles : bound.Assembles options m inventory plans clients shared)
    (legal : ∀ name ∈ inventory.fragments, isName name = true) :
    let sources := bound.nameSources inventory (m.encoders.map Prod.fst)
    m.allValueNames.Perm (NameSource.allValueNames sources) ∧
      m.allTypeNames.Perm (sources.flatMap NameSource.typeNames) ∧
        m.allConstructorNames.Perm (sources.flatMap NameSource.constructorNames) := by
  intro sources
  have named := assembles.namesOf_groups legal
  have perm := assembles.declarations_perm
  have collected (select : Declaration → List String) (names : NameSource → List String)
      (same : ∀ source group, NamesOf source group → group.flatMap select = names source) :
      (nameGroups inventory plans clients shared).flatten.flatMap select =
        sources.flatMap names := by
    rw [← List.flatMap_id, List.flatMap_assoc, List.flatMap_def, List.flatMap_def]
    exact congrArg List.flatten (Forall₂.map_eq_map named same)
  refine ⟨?_, ?_, ?_⟩
  · refine (perm.flatMap_right _).trans (.of_eq ?_)
    rw [List.flatMap_cons, collected _ _ fun _ _ names => names.values]
    rfl
  · refine (perm.flatMap_right _).trans (.of_eq ?_)
    rw [List.flatMap_cons, collected _ _ fun _ _ names => names.types]
    rfl
  · refine (perm.flatMap_right _).trans (.of_eq ?_)
    rw [List.flatMap_cons, collected _ _ fun _ _ names => names.constructors]
    rfl

/-- The sources of a document of the grammar about a named schema are named. -/
theorem Assembles.nameSources_isNamed
    (assembles : bound.Assembles options m inventory plans clients shared)
    (schemaNamed : bound.schema.IsNamed)
    (operations : ∀ operation ∈ bound.operations, operation.Legal)
    (fragments : ∀ name ∈ inventory.fragments, isName name = true) :
    ∀ source ∈ bound.nameSources inventory (m.encoders.map Prod.fst), source.IsNamed := by
  have sound := inventory_sound assembles.collected
  simp only [nameSources, List.forall_mem_append, List.forall_mem_map]
  refine ⟨⟨⟨⟨?_, ?_⟩, fragments⟩, ?_⟩, ?_⟩
  · intro union member
    have united := sound.unionsOf union member
    unfold Schema.unionMembers? at united
    split at united
    · next members body =>
        obtain rfl := Option.some.inj united
        exact schemaNamed _ _ body
    · exact nomatch united
  · intro enum member
    obtain ⟨values, body, same⟩ := sound.enumsOf.ofSchema enum member
    have parts : enum.cases.map (·.wire) = values := by
      rw [same, EnumDeclaration.ofValues, List.map_map]
      exact List.map_id _
    rw [parts]
    exact schemaNamed _ _ body
  · intro operation member
    have legal := operations operation member
    refine ⟨GraphQL.isName_title legal.name, ?_⟩
    intro input among
    obtain ⟨definition, there, rfl⟩ := List.mem_map.mp among
    exact (legal.definitions definition (List.mem_filter.mp there).1).name
  · rw [assembles.encoders]
    intro entry member
    obtain ⟨input, cyclic, rfl⟩ := List.mem_map.mp member
    obtain ⟨slots, held, _⟩ := assembles.recursive cyclic
    obtain ⟨body, found, _⟩ := Option.bind_eq_some_iff.mp held
    exact (schemaNamed _ _ found).1

end BoundDocument

/-- The names that a module declares are identifiers exactly if the names fit that it is generated
from: they start with a letter, and none becomes a reserved word by the change of its first letter.
Where besides no base name goes on as another one with an underscore does, no name is declared twice
in its class exactly if those names are told apart that it is generated from. -/
theorem generate_names {schema : Schema} {text : String} {document : Document}
    {options : GenerationOptions} {m : Module} (schemaNamed : schema.IsNamed)
    (parsed : Document.parse text = .ok document)
    (generated : generate schema document options = .ok m) :
    ∃ bound inventory sources, BoundDocument.bind schema document = .ok bound ∧
      bound.inventory = .ok inventory ∧
      bound.nameSources inventory (m.encoders.map Prod.fst) = sources ∧
      (m.NamesLegal ↔ ∀ source ∈ sources, source.IsFit) ∧
      (m.NamesLegal → NameSource.Apart (sources.map NameSource.typeName) →
        (m.NamesDistinct ↔ NameSource.Distinct sources)) := by
  obtain ⟨bound, inventory, plans, clients, shared, bind_ok, assembles⟩ :=
    generate_assembles generated
  obtain ⟨rfl, _, sorted⟩ := BoundDocument.bind_eq_ok bind_ok
  have legal := Document.legal_of_parse parsed
  have operations : ∀ operation ∈ bound.operations, operation.Legal := fun operation member =>
    legal.operations operation ((BoundDocument.operations_perm bind_ok).mem_iff.mp member)
  have fragments : ∀ name ∈ inventory.fragments, isName name = true := by
    intro name member
    obtain ⟨fragment, found, _⟩ :=
      (BoundDocument.inventory_sound assembles.collected).closed name member
    have there := BoundDocument.mem_of_fragment? found
    rw [sorted, (BoundDocument.sortByPosition_perm Fragment.position _).mem_iff] at there
    rw [← BoundDocument.name_of_fragment? found]
    exact (legal.fragments fragment there).name
  have named := assembles.nameSources_isNamed schemaNamed operations fragments
  obtain ⟨values, types, constructors⟩ := assembles.names_perm fragments
  have fits : m.NamesLegal ↔
      ∀ source ∈ bound.nameSources inventory (m.encoders.map Prod.fst), source.IsFit := by
    rw [← NameSource.forall_legal_iff named]
    simp only [← values.mem_iff, ← types.mem_iff, ← constructors.mem_iff]
    exact ⟨fun ⟨one, two, three⟩ => ⟨one, two, three⟩, fun ⟨one, two, three⟩ => ⟨one, two, three⟩⟩
  refine ⟨bound, inventory, _, bind_ok, assembles.collected, rfl, fits, fun identifiers apart => ?_⟩
  rw [← NameSource.distinct_iff named (fits.mp identifiers) apart, ← values.nodup_iff,
    ← types.nodup_iff, ← constructors.nodup_iff]
  exact ⟨fun ⟨one, two, three⟩ => ⟨one, two, three⟩, fun ⟨one, two, three⟩ => ⟨one, two, three⟩⟩

/-! ### An operation that is named by a keyword -/

/-- A document whose operation is named by a keyword of Elm. -/
def keywordText : String :=
  "query type \x7b pets \x7b __typename ... on Dog \x7b name \x7d " ++
    "... on Cat \x7b name \x7d \x7d \x7d"

theorem zooSchema_isNamed : zooSchema.IsNamed := .of_types (by decide +kernel)

/-- Whether the names for which a module is generated about the schema pass a test. -/
def zooNamesPass (text : String) (test : List NameSource → Bool) : Bool :=
  (Document.parse text).toOption.any fun document =>
    (generate zooSchema document zooOptions).toOption.any fun m =>
      (BoundDocument.bind zooSchema document).toOption.any fun bound =>
        bound.inventory.toOption.any fun inventory =>
          test (bound.nameSources inventory (m.encoders.map Prod.fst))

theorem exists_of_zooNamesPass {text : String} {test : List NameSource → Bool}
    (evaluated : zooNamesPass text test = true) :
    ∃ document m bound inventory, Document.parse text = .ok document ∧
      generate zooSchema document zooOptions = .ok m ∧
      BoundDocument.bind zooSchema document = .ok bound ∧ bound.inventory = .ok inventory ∧
      test (bound.nameSources inventory (m.encoders.map Prod.fst)) = true := by
  obtain ⟨document, parsed, evaluated⟩ := Except.any_toOption.mp evaluated
  obtain ⟨m, generated, evaluated⟩ := Except.any_toOption.mp evaluated
  obtain ⟨bound, bind_ok, evaluated⟩ := Except.any_toOption.mp evaluated
  obtain ⟨inventory, collected, passes⟩ := Except.any_toOption.mp evaluated
  exact ⟨document, m, bound, inventory, parsed, generated, bind_ok, collected, passes⟩

/-- The names of a document with things of all kinds are legal and distinct; those of a document
whose operation is named by a keyword are not legal. -/
theorem zoo_names : (∃ document m, Document.parse zooText = .ok document ∧
      generate zooSchema document zooOptions = .ok m ∧ m.NamesLegal ∧ m.NamesDistinct) ∧
    ∃ document m, Document.parse keywordText = .ok document ∧
      generate zooSchema document zooOptions = .ok m ∧ ¬ m.NamesLegal := by
  constructor
  · have evaluated : zooNamesPass zooText (fun sources =>
        decide ((∀ source ∈ sources, source.IsFit) ∧
          NameSource.Apart (sources.map NameSource.typeName) ∧ NameSource.Distinct sources)) =
            true := by decide +kernel
    obtain ⟨document, m, bound, inventory, parsed, generated, bind_ok, collected, passes⟩ :=
      exists_of_zooNamesPass evaluated
    obtain ⟨fit, apart, distinct⟩ := of_decide_eq_true passes
    obtain ⟨bound', inventory', sources, bind_ok', collected', rfl, legal, differ⟩ :=
      generate_names zooSchema_isNamed parsed generated
    obtain rfl := Except.ok.inj (bind_ok.symm.trans bind_ok')
    obtain rfl := Except.ok.inj (collected.symm.trans collected')
    have identifiers := legal.mpr fit
    exact ⟨document, m, parsed, generated, identifiers, (differ identifiers apart).mpr distinct⟩
  · have evaluated : zooNamesPass keywordText (fun sources =>
        decide (¬ ∀ source ∈ sources, source.IsFit)) = true := by decide +kernel
    obtain ⟨document, m, bound, inventory, parsed, generated, bind_ok, collected, passes⟩ :=
      exists_of_zooNamesPass evaluated
    obtain ⟨bound', inventory', sources, bind_ok', collected', rfl, legal, _⟩ :=
      generate_names zooSchema_isNamed parsed generated
    obtain rfl := Except.ok.inj (bind_ok.symm.trans bind_ok')
    obtain rfl := Except.ok.inj (collected.symm.trans collected')
    exact ⟨document, m, parsed, generated, fun fit => of_decide_eq_true passes (legal.mp fit)⟩

end ElmClient
