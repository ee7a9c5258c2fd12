/-
Module: ElmClient.Proofs.Generation.Declarations
Purpose: What a generated module declares, read off the document: one request, decoder and alias for
  each operation, the fragments and the enumerations of the inventory. Where names do not collide,
  looking one up finds the declaration that was made for it.
Main exports: Module.Resolvable, BoundDocument.ClientOf, BoundDocument.Declares,
  BoundDocument.Assembles, BoundDocument.Declares.fragment_of_isPlanOf, generate_declares
-/
import ElmClient.Generation
import ElmClient.Proofs.Dictionary
import ElmClient.Proofs.OperationNames
import ElmClient.Proofs.Plan.Coherence

namespace ElmClient

open GraphQL Elm

/-! ### Modules whose names can be followed -/

namespace Elm

mutual

/-- The fragments whose open aliases a type applies. -/
def TypeExpr.extensions : TypeExpr → List String
  | .scalar _ | .enum _ | .named _ => []
  | .list item => item.extensions
  | .optional inner => inner.extensions
  | .record fields _ => TypeExpr.fieldExtensions fields
  | .union _ arguments => TypeExpr.fieldExtensions arguments
  | .extend fragment base => fragment :: base.extensions
  | .app _ arguments => TypeExpr.argumentExtensions arguments
termination_by structural type => type

/-- The fragments that named types apply. -/
def TypeExpr.fieldExtensions : List (String × TypeExpr) → List String
  | [] => []
  | (_, type) :: rest => type.extensions ++ TypeExpr.fieldExtensions rest
termination_by structural types => types

/-- The fragments that arguments apply. -/
def TypeExpr.argumentExtensions : List TypeExpr → List String
  | [] => []
  | type :: rest => type.extensions ++ TypeExpr.argumentExtensions rest
termination_by structural types => types

end

namespace Module

/-- The aliases and their types in order. -/
def typeAliases (m : Module) : List (String × TypeExpr) :=
  m.declarations.filterMap Declaration.typeAlias?

/-- The names and decoders in order. -/
def decoders (m : Module) : List (String × Decoder) :=
  m.declarations.filterMap Declaration.decoder?

/-- The types that names of the module stand for. -/
def namedTypes (m : Module) : List TypeExpr :=
  m.typeAliases.map Prod.snd ++ m.fragments.map (·.type)

/-- Whether whatever is declared under the name of a fragment takes further fields. -/
def Opens (m : Module) (fragment : String) : Prop :=
  ∀ declaration ∈ m.fragments,
    declaration.name = Text.capitalize fragment → declaration.isOpen = true

/-- A module in which a name stands for one alias and for one fragment, and in which every fragment
that a type extends is declared open. -/
structure Resolvable (m : Module) : Prop where
  aliases_nodup : (m.typeAliases.map Prod.fst).Nodup
  fragments_nodup : (m.fragments.map (·.name)).Nodup
  extensions_open : ∀ type ∈ m.namedTypes, ∀ fragment ∈ type.extensions, m.Opens fragment

instance (m : Module) (fragment : String) : Decidable (m.Opens fragment) :=
  inferInstanceAs (Decidable (∀ declaration ∈ m.fragments, _ → _))

instance (m : Module) : Decidable m.Resolvable :=
  decidable_of_iff
    ((m.typeAliases.map Prod.fst).Nodup ∧ (m.fragments.map (·.name)).Nodup ∧
      ∀ type ∈ m.namedTypes, ∀ fragment ∈ type.extensions, m.Opens fragment)
    ⟨fun ⟨aliases, fragments, extensions⟩ => ⟨aliases, fragments, extensions⟩,
      fun ⟨aliases, fragments, extensions⟩ => ⟨aliases, fragments, extensions⟩⟩

/-- Where names of fragments do not repeat, a look-up finds every declaration. -/
theorem fragment_of_mem {m : Module} (distinct : (m.fragments.map (·.name)).Nodup)
    {declaration : FragmentDeclaration} (member : declaration ∈ m.fragments) :
    m.fragment declaration.name = some declaration :=
  Dictionary.find?_of_mem distinct member

/-- Where names of enumerations do not repeat, a look-up finds every one of them. -/
theorem enum_of_mem {m : Module} (distinct : (m.enums.map (·.name)).Nodup)
    {enum : EnumDeclaration} (member : enum ∈ m.enums) : m.enum enum.name = some enum := by
  have reversed : (m.enums.reverse.map (·.name)).Nodup := by
    rw [List.map_reverse]
    exact List.nodup_reverse.mpr distinct
  exact Dictionary.find?_of_mem reversed (List.mem_reverse.mpr member)

end Module

end Elm

/-! ### The declarations of a document -/

/-- The aliases that are declared for an operation. -/
def OperationClient.aliases (client : OperationClient) : List (String × TypeExpr) :=
  (client.resultType, client.result) :: client.inputs ++
    client.request.parametersType.toList.map fun name => (name, .closed client.parameters)

/-- The declaration of a fragment of a name with a plan. -/
def SelectionPlan.declaration (name : String) : SelectionPlan → FragmentDeclaration
  | .record plan =>
      ⟨Text.capitalize name, RecordPlan.type (some DeclarationGroup.rowVariable) plan, true⟩
  | .union plan => ⟨Text.capitalize name, UnionPlan.type plan, false⟩

theorem SelectionPlan.declaration_name (plan : SelectionPlan) (name : String) :
    (plan.declaration name).name = Text.capitalize name := by
  cases plan <;> rfl

/-- What a client has of its operation. Its result type and its decoder come from one plan. -/
structure BoundDocument.ClientOf (bound : BoundDocument) (operation : Operation)
    (client : OperationClient) : Prop where
  resultType : client.resultType = Text.capitalize operation.title
  operationName : client.request.operationName = operation.title
  functionName : client.request.functionName = Text.decapitalize operation.title
  printed : bound.queryText operation = .ok client.request.queryText
  decoderName : client.request.decoderName = Name.decoder (Text.capitalize operation.title)
  planned : ∃ plan, bound.operationPlan operation = .ok plan ∧
    client.result = RecordPlan.type none plan ∧
      client.decoder = plan.responseDecoder (Text.capitalize operation.title)

/-- What a module declares for a document that has the given inventory, plans of its fragments and
clients of its operations. -/
structure BoundDocument.Declares (bound : BoundDocument) (m : Module) (inventory : Inventory)
    (plans : List (String × SelectionPlan)) (clients : List OperationClient) : Prop where
  collected : bound.inventory = .ok inventory
  planned : List.Forall₂ (fun name entry => bound.declaredFragmentPlan name = .ok entry)
    inventory.fragments plans
  made : List.Forall₂ bound.ClientOf bound.operations clients
  requests : m.requests = clients.map (·.request)
  decoders : m.decoders = clients.map fun client => (client.request.decoderName, client.decoder)
  typeAliases : m.typeAliases = clients.flatMap OperationClient.aliases
  fragments : m.fragments = plans.map fun entry => entry.2.declaration entry.1
  enums : m.enums = inventory.enums
  room : inventory.fragments.length < m.declarations.length

namespace DeclarationGroup

variable {α β : Type} {select : Declaration → Option α}

theorem join_map_declarations (group : β → DeclarationGroup) (items : List β) :
    (join (items.map group)).declarations = items.flatMap fun item => (group item).declarations :=
  List.flatMap_map _ _ _

/-- The declarations of a kind in groups, group by group. -/
theorem filterMap_join (group : β → DeclarationGroup) (items : List β) :
    (join (items.map group)).declarations.filterMap select =
      items.flatMap fun item => (group item).declarations.filterMap select := by
  rw [join_map_declarations, List.filterMap_flatMap]

/-- The declarations of a kind in groups that have none of it. -/
theorem filterMap_join_eq_nil {group : β → DeclarationGroup}
    (nowhere : ∀ item, (group item).declarations.filterMap select = []) (items : List β) :
    (join (items.map group)).declarations.filterMap select = [] := by
  rw [filterMap_join, List.flatMap_eq_nil_iff]
  exact fun item _ => nowhere item

/-- The declarations of a kind in groups that have one of it each. -/
theorem filterMap_join_eq_map (select : Declaration → Option α) (group : β → DeclarationGroup)
    (value : β → α) (single : ∀ item, (group item).declarations.filterMap select = [value item])
    (items : List β) :
    (join (items.map group)).declarations.filterMap select = items.map value := by
  rw [filterMap_join, List.map_eq_flatMap]
  exact List.flatMap_congr fun item _ => single item

theorem join_ofFragment (plans : List (String × SelectionPlan)) :
    (join (plans.map fun (name, plan) => ofFragment name plan)).declarations =
      plans.map fun entry => .fragment (entry.2.declaration entry.1) := by
  rw [join_map_declarations, List.map_eq_flatMap]
  apply List.flatMap_congr
  intro entry _
  obtain ⟨name, plan⟩ := entry
  cases plan <;> rfl

theorem ofOperation_declarations (client : OperationClient) :
    (ofOperation client).declarations =
      client.aliases.map (fun entry => plainAlias entry.1 entry.2) ++
        [.request client.request,
          .decoder client.request.decoderName (.named client.resultType) client.decoder] := by
  simp [ofOperation, OperationClient.aliases]

theorem filterMap_join_ofOperation (clients : List OperationClient) :
    (join (clients.map ofOperation)).declarations.filterMap select =
      clients.flatMap fun client =>
        client.aliases.filterMap (fun entry => select (plainAlias entry.1 entry.2)) ++
          ((select (.request client.request)).toList ++
            (select (.decoder client.request.decoderName (.named client.resultType)
              client.decoder)).toList) := by
  rw [join_map_declarations, List.filterMap_flatMap]
  apply List.flatMap_congr
  intro client _
  rw [ofOperation_declarations, List.filterMap_append, List.filterMap_map]
  congr 1
  cases request : select (.request client.request) <;>
    cases decoder : select (.decoder client.request.decoderName (.named client.resultType)
      client.decoder) <;> simp [request, decoder]

end DeclarationGroup

theorem BoundDocument.operationClient_clientOf {bound : BoundDocument}
    {options : GenerationOptions} {shared later : SharedInputs} {operation : Operation}
    {client : OperationClient}
    (succeeded : bound.operationClient options shared operation = .ok (client, later)) :
    bound.ClientOf operation client := by
  obtain ⟨kind, _, planning⟩ := Except.bind_eq_ok.mp succeeded
  obtain ⟨plan, planned, printing⟩ := Except.bind_eq_ok.mp planning
  obtain ⟨queryText, printed, same⟩ := Except.bind_eq_ok.mp printing
  obtain ⟨rfl, _⟩ := Prod.mk.inj (Except.pure_eq_ok.mp same)
  exact ⟨rfl, rfl, rfl, printed, rfl, plan, planned, rfl, rfl⟩

theorem BoundDocument.operationClients_clientOf {bound : BoundDocument}
    {options : GenerationOptions} {operations : List Operation} {shared later : SharedInputs}
    {clients : List OperationClient}
    (succeeded : bound.operationClients options operations shared = .ok (clients, later)) :
    List.Forall₂ bound.ClientOf operations clients := by
  induction operations generalizing shared later clients with
  | nil =>
      obtain ⟨rfl, _⟩ := Prod.mk.inj (Except.ok.inj succeeded)
      exact .nil
  | cons first rest ih =>
      obtain ⟨⟨client, between⟩, made, others⟩ := Except.bind_eq_ok.mp succeeded
      obtain ⟨⟨clients', last⟩, followed, same⟩ := Except.bind_eq_ok.mp others
      obtain ⟨rfl, _⟩ := Prod.mk.inj (Except.pure_eq_ok.mp same)
      exact .cons (operationClient_clientOf made) (ih followed)

/-- The parts that a module is put together of, and how its declarations come from them. -/
structure BoundDocument.Assembles (bound : BoundDocument) (options : GenerationOptions)
    (m : Module) (inventory : Inventory) (plans : List (String × SelectionPlan))
    (clients : List OperationClient) (shared : SharedInputs) : Prop where
  collected : bound.inventory = .ok inventory
  planned : inventory.fragments.mapM bound.declaredFragmentPlan = .ok plans
  made : bound.operationClients options bound.operations {} = .ok (clients, shared)
  declarations : m.declarations =
    (DeclarationGroup.join (inventory.unions.map fun (name, members) =>
        DeclarationGroup.ofUnion name members)).declarations ++
      (DeclarationGroup.join (inventory.enums.map DeclarationGroup.ofEnum)).declarations ++
      [.constant "endpointUrl" (.scalar .string) options.endpoint] ++
      (DeclarationGroup.join (plans.map fun (name, plan) =>
        DeclarationGroup.ofFragment name plan)).declarations ++
      (DeclarationGroup.join (clients.map DeclarationGroup.ofOperation)).declarations ++
      (DeclarationGroup.join
        (shared.types.cycles.map (DeclarationGroup.ofRecursiveInput shared))).declarations ++
      inventory.enums.map Declaration.enumDecoder

theorem BoundDocument.elmModule_assembles {bound : BoundDocument} {options : GenerationOptions}
    {m : Module} (succeeded : bound.elmModule options = .ok m) :
    ∃ inventory plans clients shared, bound.Assembles options m inventory plans clients shared := by
  obtain ⟨inventory, collected, planning⟩ := Except.bind_eq_ok.mp succeeded
  obtain ⟨plans, planned, making⟩ := Except.bind_eq_ok.mp planning
  obtain ⟨⟨clients, shared⟩, made, same⟩ := Except.bind_eq_ok.mp making
  refine ⟨inventory, plans, clients, shared, collected, planned, made, ?_⟩
  rw [← Except.pure_eq_ok.mp same]

/-- A module declares what it is put together of. -/
theorem BoundDocument.Assembles.declares {bound : BoundDocument} {options : GenerationOptions}
    {m : Module} {inventory : Inventory} {plans : List (String × SelectionPlan)}
    {clients : List OperationClient} {shared : SharedInputs}
    (assembles : bound.Assembles options m inventory plans clients shared) :
    bound.Declares m inventory plans clients := by
  -- What custom types, constants and encoders are not selected for is in three groups only.
  have selected {α : Type} {select : Declaration → Option α}
      (custom : ∀ name parameters constructors,
        select (.customType name parameters constructors) = none)
      (constant : ∀ name type value, select (.constant name type value) = none)
      (encoder : ∀ input encoder, select (.encoder input encoder) = none) :
      m.declarations.filterMap select =
        plans.filterMap (fun entry => select (.fragment (entry.2.declaration entry.1))) ++
          clients.flatMap (fun client =>
            client.aliases.filterMap
                (fun entry => select (DeclarationGroup.plainAlias entry.1 entry.2)) ++
              ((select (.request client.request)).toList ++
                (select (.decoder client.request.decoderName (.named client.resultType)
                  client.decoder)).toList)) ++
          inventory.enums.filterMap (fun enum => select (.enumDecoder enum)) := by
    rw [assembles.declarations]
    simp only [List.filterMap_append, DeclarationGroup.join_ofFragment,
      DeclarationGroup.filterMap_join_ofOperation, List.filterMap_map, List.filterMap_cons,
      List.filterMap_nil, constant]
    rw [DeclarationGroup.filterMap_join_eq_nil, DeclarationGroup.filterMap_join_eq_nil,
      DeclarationGroup.filterMap_join_eq_nil]
    · simp
    · simp [DeclarationGroup.ofRecursiveInput, custom, encoder]
    · simp [DeclarationGroup.ofEnum, custom]
    · simp [DeclarationGroup.ofUnion, custom]
  have planned := Except.mapM_eq_ok.mp assembles.planned
  refine ⟨assembles.collected, planned, operationClients_clientOf assembles.made,
    ?_, ?_, ?_, ?_, ?_, ?_⟩
  · rw [Module.requests, selected (fun _ _ _ => rfl) (fun _ _ _ => rfl) (fun _ _ => rfl)]
    simpa [Declaration.request?, DeclarationGroup.plainAlias] using List.map_eq_flatMap.symm
  · rw [Module.decoders, selected (fun _ _ _ => rfl) (fun _ _ _ => rfl) (fun _ _ => rfl)]
    simpa [Declaration.decoder?, DeclarationGroup.plainAlias] using List.map_eq_flatMap.symm
  · rw [Module.typeAliases, selected (fun _ _ _ => rfl) (fun _ _ _ => rfl) (fun _ _ => rfl)]
    simp [Declaration.typeAlias?, DeclarationGroup.plainAlias]
  · rw [Module.fragments, selected (fun _ _ _ => rfl) (fun _ _ _ => rfl) (fun _ _ => rfl)]
    simp [Declaration.fragment?, DeclarationGroup.plainAlias]
  · rw [Module.enums, selected (fun _ _ _ => rfl) (fun _ _ _ => rfl) (fun _ _ => rfl)]
    simp [Declaration.enum?, DeclarationGroup.plainAlias]
  · rw [assembles.declarations, planned.length_eq]
    simp only [List.length_append, DeclarationGroup.join_ofFragment, List.length_map,
      List.length_singleton]
    omega

/-! ### What is found under a name -/

/-- A fragment is declared with the plan that it has by itself. -/
theorem BoundDocument.exists_fragmentPlan {bound : BoundDocument} {name : String}
    {entry : String × SelectionPlan} (succeeded : bound.declaredFragmentPlan name = .ok entry) :
    ∃ position plan, bound.fragmentPlan name position = .ok plan ∧ entry = (name, plan) := by
  obtain ⟨fragment, _, planning⟩ := Except.bind_eq_ok.mp succeeded
  obtain ⟨plan, planned, same⟩ := Except.bind_eq_ok.mp planning
  exact ⟨fragment.position, plan, planned, (Except.pure_eq_ok.mp same).symm⟩

namespace BoundDocument.Declares

variable {bound : BoundDocument} {m : Module} {inventory : Inventory}
  {plans : List (String × SelectionPlan)} {clients : List OperationClient}

/-- Every fragment of the inventory is declared by its plan. -/
theorem fragment_of_mem (declares : bound.Declares m inventory plans clients) {name : String}
    (known : name ∈ inventory.fragments) :
    ∃ position plan, bound.fragmentPlan name position = .ok plan ∧
      plan.declaration name ∈ m.fragments := by
  obtain ⟨entry, there, succeeded⟩ := Forall₂.exists_right declares.planned known
  obtain ⟨position, plan, planned, rfl⟩ := exists_fragmentPlan succeeded
  rw [declares.fragments]
  exact ⟨position, plan, planned, List.mem_map.mpr ⟨_, there, rfl⟩⟩

/-- Every declared fragment is one of the inventory, declared by its plan. -/
theorem mem_of_fragment (declares : bound.Declares m inventory plans clients)
    {declared : FragmentDeclaration} (member : declared ∈ m.fragments) :
    ∃ name ∈ inventory.fragments, ∃ position plan,
      bound.fragmentPlan name position = .ok plan ∧ declared = plan.declaration name := by
  rw [declares.fragments] at member
  obtain ⟨entry, there, rfl⟩ := List.mem_map.mp member
  obtain ⟨name, known, succeeded⟩ := Forall₂.exists_left declares.planned there
  obtain ⟨position, plan, planned, rfl⟩ := exists_fragmentPlan succeeded
  exact ⟨name, known, position, plan, planned, rfl⟩

/-- The names of the result types are those of the operations. -/
theorem resultTypes (declares : bound.Declares m inventory plans clients) :
    clients.map (·.resultType) =
      bound.operations.map fun operation => Text.capitalize operation.title :=
  Forall₂.map_eq_map declares.made fun _ _ made => made.resultType

/-- Where aliases have distinct names, so have the operations once they are capitalized. -/
theorem titles_nodup (declares : bound.Declares m inventory plans clients)
    (distinct : (m.typeAliases.map Prod.fst).Nodup) :
    (bound.operations.map fun operation => Text.capitalize operation.title).Nodup := by
  rw [← declares.resultTypes]
  rw [declares.typeAliases] at distinct
  refine distinct.sublist ?_
  clear declares distinct
  induction clients with
  | nil => exact .slnil
  | cons client rest ih =>
      rw [List.flatMap_cons, List.map_append, List.map_cons]
      exact (List.cons_sublist_cons.mpr (List.nil_sublist _)).append ih

theorem alias_of_mem (declares : bound.Declares m inventory plans clients)
    (distinct : (m.typeAliases.map Prod.fst).Nodup) {client : OperationClient}
    (member : client ∈ clients) : m.aliasType client.resultType = some client.result := by
  have there : (client.resultType, client.result) ∈ m.typeAliases := by
    rw [declares.typeAliases]
    exact List.mem_flatMap.mpr ⟨client, member, List.mem_cons_self⟩
  exact Dictionary.lookup_of_mem distinct there

theorem request_of_mem (declares : bound.Declares m inventory plans clients)
    (distinct : (bound.operations.map fun operation => Text.capitalize operation.title).Nodup)
    {client : OperationClient} (member : client ∈ clients) :
    m.request client.request.operationName = some client.request := by
  have titles : m.requests.map (·.operationName) = bound.operations.map (·.title) := by
    rw [declares.requests, List.map_map]
    exact Forall₂.map_eq_map declares.made fun _ _ made => made.operationName
  have apart : (m.requests.map (·.operationName)).Nodup := by
    rw [titles]
    apply List.Nodup.of_map Text.capitalize
    rwa [List.map_map]
  have there : client.request ∈ m.requests := by
    rw [declares.requests]
    exact List.mem_map_of_mem member
  exact Dictionary.find?_of_mem apart there

theorem decoder_of_mem (declares : bound.Declares m inventory plans clients)
    (distinct : (bound.operations.map fun operation => Text.capitalize operation.title).Nodup)
    (named : ∀ operation ∈ bound.operations, isName operation.title = true)
    {client : OperationClient} (member : client ∈ clients) :
    m.decoder client.request.decoderName = some client.decoder := by
  have names : m.decoders.map Prod.fst =
      bound.operations.map fun operation => Name.decoder (Text.capitalize operation.title) := by
    rw [declares.decoders, List.map_map]
    exact Forall₂.map_eq_map declares.made fun _ _ made => made.decoderName
  have apart : (m.decoders.map Prod.fst).Nodup := by
    rw [names]
    rw [List.Nodup, List.pairwise_map] at distinct ⊢
    apply distinct.imp_of_mem
    intro _ _ first second other same
    apply other
    exact Name.decoder_capitalize_injective (named _ first) (named _ second) same
  have there : (client.request.decoderName, client.decoder) ∈ m.decoders := by
    rw [declares.decoders]
    exact List.mem_map.mpr ⟨client, member, rfl⟩
  exact Dictionary.lookup_of_mem apart there

/-- A fragment that is spread, and that is declared open if it is declared, is found with the type
of its plan. -/
theorem fragment_of_isPlanOf (declares : bound.Declares m inventory plans clients)
    (distinct : (m.fragments.map (·.name)).Nodup) {name : String} {plan : RecordPlan}
    (planOf : bound.IsPlanOf name plan) (opened : m.Opens name) :
    ∃ type, m.fragment (Text.capitalize name) = some ⟨Text.capitalize name, type, true⟩ ∧
      type = RecordPlan.type (some DeclarationGroup.rowVariable) plan ∧ type ∈ m.namedTypes := by
  obtain ⟨on, spread, selected, rfl⟩ := planOf.used
  have known := mem_inventory_of_spread declares.collected selected
  obtain ⟨_, declared, planned, member⟩ := declares.fragment_of_mem known
  obtain ⟨fragment', found', _, derived⟩ := fragmentPlanned planned
  obtain ⟨active, fragment'', found'', derived'⟩ := planOf.planned
  obtain rfl := Option.some.inj (found'.symm.trans found'')
  cases declared with
  | union declared =>
      have closed := opened _ member rfl
      exact nomatch closed
  | record declared =>
      obtain rfl : declared = plan := RecordPlanned.deterministic derived derived'
      refine ⟨_, Module.fragment_of_mem distinct member, rfl, ?_⟩
      exact List.mem_append_right _ (List.mem_map.mpr ⟨_, member, rfl⟩)

/-- An enumeration that a selected field has is found with the values of the schema. -/
theorem enum_of_selected (declares : bound.Declares m inventory plans clients) {on : String}
    {field : Field} {brace : Position} {selections : List Selection} {type : TypeRef}
    {values : List String} (selected : bound.Selected on (.field field brace selections))
    (typed : bound.schema.selectedType on field.name field.position = .ok type)
    (body : bound.schema.get? type.name = some (.enum values)) :
    m.enum type.name = some (.ofValues type.name values) := by
  have distinct : (m.enums.map (·.name)).Nodup := by
    rw [declares.enums]
    exact (inventory_sound declares.collected).enumsOf.nodup
  have member : EnumDeclaration.ofValues type.name values ∈ m.enums := by
    rw [declares.enums]
    exact mem_inventory_of_enum declares.collected selected typed body
  exact Module.enum_of_mem distinct member

end BoundDocument.Declares

/-! ### Documents and their modules -/

namespace BoundDocument

theorem isName_title {schema : Schema} {document : Document} {bound : BoundDocument}
    (bind_ok : bind schema document = .ok bound) (named : document.WellNamed) :
    ∀ operation ∈ bound.operations, isName operation.title = true := by
  intro operation member
  exact GraphQL.isName_title (named operation ((operations_perm bind_ok).mem_iff.mp member))

end BoundDocument

/-- A module that is generated for a document is put together of what the document asks for. -/
theorem generate_assembles {schema : Schema} {document : Document} {options : GenerationOptions}
    {m : Module} (generated : generate schema document options = .ok m) :
    ∃ bound inventory plans clients shared, BoundDocument.bind schema document = .ok bound ∧
      bound.Assembles options m inventory plans clients shared := by
  obtain ⟨bound, bind_ok, made⟩ := Except.bind_eq_ok.mp generated
  obtain ⟨inventory, plans, clients, shared, assembles⟩ := BoundDocument.elmModule_assembles made
  exact ⟨bound, inventory, plans, clients, shared, bind_ok, assembles⟩

/-- A module that is generated for a document declares what the document asks for. -/
theorem generate_declares {schema : Schema} {document : Document} {options : GenerationOptions}
    {m : Module} (generated : generate schema document options = .ok m) :
    ∃ bound inventory plans clients, BoundDocument.bind schema document = .ok bound ∧
      bound.Declares m inventory plans clients := by
  obtain ⟨bound, inventory, plans, clients, shared, bind_ok, assembles⟩ :=
    generate_assembles generated
  exact ⟨bound, inventory, plans, clients, bind_ok, assembles.declares⟩

/-- What is generated from a text is generated from a document whose names the grammar admits. -/
theorem generateFromText_eq_ok {schema : Schema} {text : String} {options : GenerationOptions}
    {m : Module} (generated : generateFromText schema text options = .ok m) :
    ∃ document, Document.parse text = .ok document ∧ document.WellNamed ∧
      generate schema document options = .ok m := by
  obtain ⟨document, read, made⟩ := Except.bind_eq_ok.mp generated
  have parsed := Except.mapError_eq_ok.mp read
  exact ⟨document, parsed, Document.parse_wellNamed parsed, made⟩

end ElmClient
