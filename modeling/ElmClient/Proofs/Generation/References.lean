/-
Module: ElmClient.Proofs.Generation.References
Purpose: Every name to which a generated module refers is declared in it. The names of selections
  are those of the inventory, and those of input types are reached from the variables; the module
  declares all of the first, and the inventory has the enumerations among the second.
Main exports: Module.types, Module.allEncoders, Module.DeclaresEnum, CustomType.IsUnion,
  Module.Closed, generate_closed
-/
import ElmClient.Proofs.Input.Agreement
import ElmClient.Proofs.Input.References
import ElmClient.Proofs.Inventory.Enumerations
import ElmClient.Proofs.Plan.References

namespace ElmClient

open GraphQL Elm

/-! ### Modules without dangling names -/

namespace Elm

/-- The types in a declaration. -/
def Declaration.types : Declaration → List TypeExpr
  | .constant _ type _ => [type]
  | .typeAlias _ _ type => [type]
  | .customType _ _ constructors => constructors.flatMap Prod.snd
  | .fragment declared => [declared.type]
  | .request declared => [declared.response]
  | .decoder _ result _ => [result]
  | .encoder _ _ => []
  | .enumDecoder _ => []

/-- A type whose constructors belong to the members of a union of a schema. -/
structure CustomType.IsUnion (schema : Schema) (name : String) (type : CustomType) : Prop where
  named : type.name = name
  member_parameters : ∃ members, schema.unionMembers? name = some members ∧
    type.parameters.length = members.length

namespace Module

/-- All types in a module. -/
def types (m : Module) : List TypeExpr := m.declarations.flatMap Declaration.types

/-- All encoders in a module: those of the parameters of requests, and those that are declared. -/
def allEncoders (m : Module) : List Encoder :=
  m.requests.flatMap (fun request => request.parameters.map (·.encoder)) ++
    m.encoders.map Prod.snd

/-- A module declares an enumeration of a schema once, and a custom type with its constructors. -/
def DeclaresEnum (m : Module) (schema : Schema) (name : String) : Prop :=
  ∃ values, schema.get? name = some (.enum values) ∧
    m.enums.filter (·.name == name) = [.ofValues name values] ∧
      ⟨Text.capitalize name, [], values.map fun value => (Name.enumConstructor name value, [])⟩ ∈
        m.customTypes

/-- A module declares every union in a type, with as many parameters as the type has arguments. -/
def DeclaresUnionsOf (m : Module) (schema : Schema) (type : TypeExpr) : Prop :=
  ∀ name arguments, (TypeExpr.union name arguments).OccursIn type →
    ∃ declared ∈ m.customTypes, declared.IsUnion schema name ∧
      declared.parameters.length = arguments.length

/-- A module in which every name is declared. -/
structure Closed (m : Module) (schema : Schema) : Prop where
  type_enums : ∀ type ∈ m.types, ∀ name, (TypeExpr.enum name).OccursIn type →
    m.DeclaresEnum schema name
  decoder_enums : ∀ entry ∈ m.decoders, ∀ name, (Decoder.enum name).OccursIn entry.2 →
    m.DeclaresEnum schema name
  encoder_enums : ∀ encoder ∈ m.allEncoders, ∀ name, (Encoder.enum name).OccursIn encoder →
    m.DeclaresEnum schema name
  fragment_unions : ∀ fragment ∈ m.fragments, m.DeclaresUnionsOf schema fragment.type
  decoder_unions : ∀ entry ∈ m.decoders, ∀ name cases,
    (Decoder.union name cases).OccursIn entry.2 →
      ∃ declared ∈ m.customTypes, declared.IsUnion schema name ∧
        ∀ chosen ∈ cases, ∃ constructor, chosen.2.constructor = .tagged constructor ∧
          constructor ∈ declared.constructors.map Prod.fst
  extensions : ∀ type ∈ m.types, ∀ fragment base,
    (TypeExpr.extend fragment base).OccursIn type →
      ∃ declared ∈ m.fragments, declared.name = Text.capitalize fragment
  encoder_names : ∀ encoder ∈ m.allEncoders, ∀ input, (Encoder.named input).OccursIn encoder →
    (∃ declared, m.encoders.filter (·.1 == input) = [(input, declared)]) ∧
      ∃ type ∈ m.customTypes, type.name = Text.capitalize input

end Module

end Elm

/-- The constructors of the custom type of a union are those of its members. -/
theorem unionType_constructors (name : String) (members : List String) :
    (unionType name members).constructors.map Prod.fst =
      members.map (Name.unionConstructor name) := by
  rw [unionType, List.map_map]
  have lengths : members.length = ((List.range members.length).map Name.typeParameter).length := by
    simp
  have firsts := List.map_fst_zip (Nat.le_of_eq lengths)
  conv_rhs => rw [← firsts, List.map_map]
  rfl

/-- The name in a type, if it is that of an enumeration or of a fragment, is in an inventory. -/
def Elm.TypeExpr.KnownIn (inventory : Inventory) : TypeExpr → Prop
  | .enum name => name ∈ inventory.enums.map (·.name)
  | .extend fragment _ => fragment ∈ inventory.fragments
  | _ => True

/-- The name in an encoder is that of an enumeration in an inventory, or one at which the searches
for input types were cut. -/
def Elm.Encoder.KnownIn (inventory : Inventory) (cycles : List String) : Encoder → Prop
  | .enum name => name ∈ inventory.enums.map (·.name)
  | .named input => input ∈ cycles
  | _ => True

theorem Elm.TypeExpr.Each.knownIn {inventory : Inventory} {type : TypeExpr}
    (each : type.Each (TypeExpr.NotedIn inventory)) :
    type.Each (TypeExpr.KnownIn inventory) := by
  intro node inside
  have noted := each node inside
  cases node with
  | enum name => exact noted
  | extend fragment base => exact noted
  | _ => trivial

/-! ### What a module is put together of -/

namespace BoundDocument.Assembles

variable {bound : BoundDocument} {options : GenerationOptions} {m : Module}
  {inventory : Inventory} {plans : List (String × SelectionPlan)}
  {clients : List OperationClient} {shared : SharedInputs}

theorem declaresEnum (assembles : bound.Assembles options m inventory plans clients shared)
    {name : String} (known : name ∈ inventory.enums.map (·.name)) :
    m.DeclaresEnum bound.schema name := by
  have enumsOf := (inventory_sound assembles.collected).enumsOf
  obtain ⟨enum, member, rfl⟩ := List.mem_map.mp known
  obtain ⟨values, body, same⟩ := enumsOf.ofSchema enum member
  refine ⟨values, body, ?_, ?_⟩
  · rw [assembles.declares.enums, ← same]
    exact Dictionary.filter_key_eq_singleton enumsOf.nodup member
  · rw [assembles.customTypes]
    refine List.mem_append_left _ (List.mem_append_right _ (List.mem_map.mpr ⟨enum, member, ?_⟩))
    rw [same]
    simp [EnumDeclaration.customType, EnumDeclaration.ofValues]

theorem unionType_isUnion (assembles : bound.Assembles options m inventory plans clients shared)
    {name : String} {members : List String} (known : (name, members) ∈ inventory.unions) :
    unionType name members ∈ m.customTypes ∧ (unionType name members).IsUnion bound.schema name := by
  have united := (inventory_sound assembles.collected).unionsOf _ known
  constructor
  · rw [assembles.customTypes]
    exact List.mem_append_left _ (List.mem_append_left _ (List.mem_map.mpr ⟨_, known, rfl⟩))
  · exact ⟨rfl, members, united, by simp [unionType]⟩

theorem declaresUnionsOf (assembles : bound.Assembles options m inventory plans clients shared)
    {type : TypeExpr} (each : type.Each (TypeExpr.NotedIn inventory)) :
    m.DeclaresUnionsOf bound.schema type := by
  intro name arguments inside
  obtain ⟨declared, union⟩ := assembles.unionType_isUnion (each _ inside)
  exact ⟨_, declared, union, by simp [unionType]⟩

theorem exists_fragment (assembles : bound.Assembles options m inventory plans clients shared)
    {name : String} (known : name ∈ inventory.fragments) :
    ∃ declared ∈ m.fragments, declared.name = Text.capitalize name := by
  obtain ⟨_, plan, _, member⟩ := assembles.declares.fragment_of_mem known
  exact ⟨_, member, plan.declaration_name name⟩

/-- The types of the fragments only have names of the inventory. -/
theorem fragments_each (assembles : bound.Assembles options m inventory plans clients shared) :
    ∀ fragment ∈ m.fragments, fragment.type.Each (TypeExpr.NotedIn inventory) := by
  intro fragment member
  obtain ⟨name, known, _, plan, planned, rfl⟩ := assembles.declares.mem_of_fragment member
  have noted := fragmentPlan_noted assembles.collected known planned
  cases plan with
  | record record => exact noted.type _
  | union union => exact FieldKind.Noted.type noted

/-- The names in the form of an input type that is reached from a variable are known. -/
theorem inputForm_known (assembles : bound.Assembles options m inventory plans clients shared)
    {operation : Operation} (among : operation ∈ bound.operations)
    {definition : VariableDefinition} (defined : definition ∈ operation.definitions)
    {name : String} (reached : bound.schema.Reaches definition.type.name name) {type : TypeExpr}
    {encoder : Encoder} (form : InputForm bound.schema shared.types.cycles name type encoder) :
    type.Each (TypeExpr.KnownIn inventory) ∧
      encoder.Each (Encoder.KnownIn inventory shared.types.cycles) := by
  obtain ⟨typed, encoded⟩ := form.names
  have known {enum : String} (here : bound.schema.ReachesEnum name enum) :
      enum ∈ inventory.enums.map (·.name) := by
    obtain ⟨later, values, body⟩ := here
    have member := mem_inventory_of_variable assembles.collected among defined
      (reached.trans later) body
    exact List.mem_map_of_mem (f := EnumDeclaration.name) member
  constructor
  · intro node inside
    have named := typed node inside
    cases node with
    | enum _ => exact known named
    | extend _ _ => exact named.elim
    | _ => trivial
  · intro node inside
    have named := encoded node inside
    cases node with
    | enum _ => exact known named
    | named _ => exact named
    | _ => trivial

/-- The names in the type and the encoder of a variable are known. -/
theorem slot_known (assembles : bound.Assembles options m inventory plans clients shared)
    {operation : Operation} (among : operation ∈ bound.operations) {client : OperationClient}
    {slots : List InputSlot}
    (takes : client.Takes bound.schema shared.types.cycles operation slots)
    {slot : InputSlot} (member : slot ∈ slots) :
    slot.field.2.Each (TypeExpr.KnownIn inventory) ∧
      slot.encoded.encoder.Each (Encoder.KnownIn inventory shared.types.cycles) := by
  obtain ⟨definition, defined, _, sameType⟩ := takes.exists_definition member
  have reached : bound.schema.Reaches definition.type.name slot.type.name := by
    rw [sameType]
    exact .refl _
  obtain ⟨typed, encoded⟩ :=
    assembles.inputForm_known among defined reached (takes.forms slot member)
  exact ⟨.wrap (fun _ => trivial) (fun _ => trivial) _ typed,
    .wrap (fun _ => trivial) (fun _ => trivial) _ encoded⟩

/-- The names in the record and the encoder of an input type that contains itself are known. -/
theorem cycle_known (assembles : bound.Assembles options m inventory plans clients shared)
    {input : String} (member : input ∈ shared.types.cycles) :
    (shared.record input).Each (TypeExpr.KnownIn inventory) ∧
      (shared.object input).Each (Encoder.KnownIn inventory shared.types.cycles) := by
  obtain ⟨operation, among, definition, defined, reached⟩ := assembles.reaches_of_cycle member
  exact assembles.inputForm_known among defined reached (assembles.recursive member).form

/-- The plan of an operation only has names of the inventory, and so has what its client has from
the plan. -/
theorem client_noted (assembles : bound.Assembles options m inventory plans clients shared)
    {operation : Operation} (among : operation ∈ bound.operations) {client : OperationClient}
    (made : bound.ClientOf operation client) :
    client.result.Each (TypeExpr.NotedIn inventory) ∧
      client.decoder.Each (Decoder.NotedIn inventory) := by
  obtain ⟨plan, planned, result, decoder⟩ := made.planned
  have noted := operationPlan_noted assembles.collected among planned
  rw [result, decoder]
  exact ⟨noted.type none, noted.responseDecoder _⟩

/-- A property has all that stands in the aliases of an operation if it has what stands in the type
of its result and in the types of its variables. -/
theorem aliases_each (assembles : bound.Assembles options m inventory plans clients shared)
    {holds : TypeExpr → Prop} (named : ∀ name, holds (.named name))
    (record : ∀ fields row, holds (.record fields row))
    (results : ∀ operation ∈ bound.operations, ∀ client, bound.ClientOf operation client →
      client.result.Each holds)
    (inputs : ∀ operation ∈ bound.operations, ∀ (client : OperationClient) slots,
      client.Takes bound.schema shared.types.cycles operation slots →
        ∀ slot ∈ slots, slot.field.2.Each holds)
    {client : OperationClient} (among : client ∈ clients) :
    ∀ entry ∈ client.aliases, entry.2.Each holds := by
  obtain ⟨operation, there, made, slots, takes⟩ := assembles.takes_of_client among
  have typed := inputs operation there client slots takes
  intro entry member
  rw [OperationClient.aliases, List.mem_append, List.mem_cons] at member
  rcases member with (rfl | input) | parameters
  · exact results operation there client made
  · rw [takes.inputs] at input
    obtain ⟨slot, inside, rfl⟩ := List.mem_map.mp input
    exact typed slot (List.mem_filter.mp inside).1
  · obtain ⟨name, _, rfl⟩ := List.mem_map.mp parameters
    refine .record (record _ _) fun field inside => ?_
    rw [takes.parameters] at inside
    obtain ⟨slot, listed, rfl⟩ := List.mem_map.mp inside
    unfold InputSlot.parameterField
    split
    · exact .named (named _)
    · exact typed slot listed

theorem operationClients_response {operations : List Operation} {shared later : SharedInputs}
    {clients : List OperationClient}
    (succeeded : bound.operationClients options operations shared = .ok (clients, later)) :
    ∀ client ∈ clients, client.request.response = options.responseType client.resultType := by
  induction operations generalizing shared later clients with
  | nil =>
      obtain ⟨rfl, _⟩ := Prod.mk.inj (Except.ok.inj succeeded)
      exact fun _ absent => absurd absent List.not_mem_nil
  | cons first rest ih =>
      obtain ⟨⟨client, between⟩, made, others⟩ := Except.bind_eq_ok.mp succeeded
      obtain ⟨⟨clients', last⟩, followed, same⟩ := Except.bind_eq_ok.mp others
      obtain ⟨rfl, _⟩ := Prod.mk.inj (Except.pure_eq_ok.mp same)
      obtain ⟨kind, _, planning⟩ := Except.bind_eq_ok.mp made
      obtain ⟨plan, _, printing⟩ := Except.bind_eq_ok.mp planning
      obtain ⟨queryText, _, same⟩ := Except.bind_eq_ok.mp printing
      obtain ⟨rfl, _⟩ := Prod.mk.inj (Except.pure_eq_ok.mp same)
      exact List.forall_mem_cons.mpr ⟨rfl, ih followed⟩

/-- The type of a response only names the type of the result. -/
theorem responseType_each {holds : TypeExpr → Prop} (named : ∀ name, holds (.named name))
    (app : ∀ constructor arguments, holds (.app constructor arguments))
    (options : GenerationOptions) (resultType : String) :
    (options.responseType resultType).Each holds := by
  unfold GenerationOptions.responseType
  split
  · refine .app (app _ _) fun argument among => ?_
    rw [List.mem_singleton.mp among]
    exact .named (named _)
  · exact .named (named _)

/-- A property has all that stands in the types of a module if it has what stands in the types of
results, fragments and variables and in the records of input types that contain themselves. -/
theorem types_each (assembles : bound.Assembles options m inventory plans clients shared)
    {holds : TypeExpr → Prop} (scalar : ∀ s, holds (.scalar s))
    (named : ∀ name, holds (.named name)) (record : ∀ fields row, holds (.record fields row))
    (app : ∀ constructor arguments, holds (.app constructor arguments))
    (fragments : ∀ fragment ∈ m.fragments, fragment.type.Each holds)
    (results : ∀ operation ∈ bound.operations, ∀ client, bound.ClientOf operation client →
      client.result.Each holds)
    (inputs : ∀ operation ∈ bound.operations, ∀ (client : OperationClient) slots,
      client.Takes bound.schema shared.types.cycles operation slots →
        ∀ slot ∈ slots, slot.field.2.Each holds)
    (cycles : ∀ input ∈ shared.types.cycles, (shared.record input).Each holds) :
    ∀ type ∈ m.types, type.Each holds := by
  intro type member
  obtain ⟨declaration, declared, inside⟩ := List.mem_flatMap.mp member
  rw [assembles.declarations] at declared
  simp only [List.mem_append, DeclarationGroup.join_map_declarations, List.mem_flatMap]
    at declared
  rcases declared with
    (((((⟨⟨name, members⟩, _, union⟩ | ⟨enum, _, enumerated⟩) | constant) |
      ⟨⟨name, plan⟩, there, fragment⟩) | ⟨client, among, operation⟩) |
        ⟨input, cyclic, recursive⟩) | decoder
  · obtain rfl := List.mem_singleton.mp union
    obtain ⟨constructor, constructed, argument⟩ := List.mem_flatMap.mp inside
    obtain ⟨pair, _, rfl⟩ := List.mem_map.mp constructed
    rw [List.mem_singleton.mp argument]
    exact .named (named _)
  · obtain rfl := List.mem_singleton.mp enumerated
    obtain ⟨constructor, constructed, argument⟩ := List.mem_flatMap.mp inside
    obtain ⟨enumCase, _, rfl⟩ := List.mem_map.mp constructed
    exact absurd argument List.not_mem_nil
  · obtain rfl := List.mem_singleton.mp constant
    rw [List.mem_singleton.mp inside]
    exact .scalar (scalar _)
  · have listed : plan.declaration name ∈ m.fragments := by
      rw [assembles.declares.fragments]
      exact List.mem_map.mpr ⟨_, there, rfl⟩
    have same : declaration = .fragment (plan.declaration name) := by
      cases plan <;> exact List.mem_singleton.mp fragment
    subst same
    rw [List.mem_singleton.mp inside]
    exact fragments _ listed
  · rw [DeclarationGroup.ofOperation_declarations] at operation
    rcases List.mem_append.mp operation with aliased | requested
    · obtain ⟨entry, listed, rfl⟩ := List.mem_map.mp aliased
      rw [List.mem_singleton.mp inside]
      exact assembles.aliases_each named record results inputs among entry listed
    · rcases List.mem_cons.mp requested with rfl | decoded
      · rw [List.mem_singleton.mp inside, operationClients_response assembles.made _ among]
        exact responseType_each named app options _
      · obtain rfl := List.mem_singleton.mp decoded
        rw [List.mem_singleton.mp inside]
        exact .named (named _)
  · rcases List.mem_cons.mp recursive with rfl | encoded
    · rw [List.mem_singleton.mp inside]
      exact cycles input cyclic
    · obtain rfl := List.mem_singleton.mp encoded
      exact absurd inside List.not_mem_nil
  · obtain ⟨enum, _, rfl⟩ := List.mem_map.mp decoder
    exact absurd inside List.not_mem_nil

/-- The names in all types of a module are known. -/
theorem types_known (assembles : bound.Assembles options m inventory plans clients shared) :
    ∀ type ∈ m.types, type.Each (TypeExpr.KnownIn inventory) :=
  assembles.types_each (fun _ => trivial) (fun _ => trivial) (fun _ _ => trivial)
    (fun _ _ => trivial)
    (fun fragment member => (assembles.fragments_each fragment member).knownIn)
    (fun _ among _ made => (assembles.client_noted among made).1.knownIn)
    (fun _ among _ _ takes _ member => (assembles.slot_known among takes member).1)
    (fun _ cyclic => (assembles.cycle_known cyclic).1)

/-- A property has all that stands in the encoders of a module if it has what stands in the encoders
of variables and in those of input types that contain themselves. -/
theorem encoders_each (assembles : bound.Assembles options m inventory plans clients shared)
    {holds : Encoder → Prop}
    (inputs : ∀ operation ∈ bound.operations, ∀ (client : OperationClient) slots,
      client.Takes bound.schema shared.types.cycles operation slots →
        ∀ slot ∈ slots, slot.encoded.encoder.Each holds)
    (cycles : ∀ input ∈ shared.types.cycles, (shared.object input).Each holds) :
    ∀ encoder ∈ m.allEncoders, encoder.Each holds := by
  intro encoder member
  rcases List.mem_append.mp member with parameter | declared
  · obtain ⟨request, requested, inside⟩ := List.mem_flatMap.mp parameter
    rw [assembles.declares.requests] at requested
    obtain ⟨client, among, rfl⟩ := List.mem_map.mp requested
    obtain ⟨operation, there, _, slots, takes⟩ := assembles.takes_of_client among
    have encoders := congrArg (List.map (·.encoder)) takes.encoded
    rw [List.map_map] at encoders
    have listed : encoder ∈ (slots.map InputSlot.encoded).map (·.encoder) := encoders ▸ inside
    rw [List.map_map] at listed
    obtain ⟨slot, slotted, rfl⟩ := List.mem_map.mp listed
    exact inputs operation there client slots takes slot slotted
  · rw [assembles.encoders, List.map_map] at declared
    obtain ⟨input, cyclic, rfl⟩ := List.mem_map.mp declared
    exact cycles input cyclic

/-- The names in all encoders of a module are known. -/
theorem encoders_known (assembles : bound.Assembles options m inventory plans clients shared) :
    ∀ encoder ∈ m.allEncoders, encoder.Each (Encoder.KnownIn inventory shared.types.cycles) :=
  assembles.encoders_each
    (fun _ among _ _ takes _ member => (assembles.slot_known among takes member).2)
    (fun _ cyclic => (assembles.cycle_known cyclic).2)

/-- The names in all decoders of a module are those of the inventory. -/
theorem decoders_noted (assembles : bound.Assembles options m inventory plans clients shared) :
    ∀ entry ∈ m.decoders, entry.2.Each (Decoder.NotedIn inventory) := by
  rw [assembles.declares.decoders]
  intro entry member
  obtain ⟨client, among, rfl⟩ := List.mem_map.mp member
  obtain ⟨operation, there, made, _⟩ := assembles.takes_of_client among
  exact (assembles.client_noted there made).2

/-- Every name in a module is declared in it. -/
theorem closed (assembles : bound.Assembles options m inventory plans clients shared) :
    m.Closed bound.schema where
  type_enums type member name inside :=
    assembles.declaresEnum (assembles.types_known type member _ inside)
  decoder_enums entry member name inside :=
    assembles.declaresEnum (assembles.decoders_noted entry member _ inside)
  encoder_enums encoder member name inside :=
    assembles.declaresEnum (assembles.encoders_known encoder member _ inside)
  fragment_unions fragment member :=
    assembles.declaresUnionsOf (assembles.fragments_each fragment member)
  decoder_unions entry member name cases inside := by
    obtain ⟨members, known, each⟩ := assembles.decoders_noted entry member _ inside
    obtain ⟨declared, union⟩ := assembles.unionType_isUnion known
    refine ⟨_, declared, union, fun chosen among => ?_⟩
    obtain ⟨there, tagged⟩ := each chosen among
    refine ⟨_, tagged, ?_⟩
    rw [unionType_constructors]
    exact List.mem_map_of_mem there
  extensions type member fragment base inside :=
    assembles.exists_fragment (assembles.types_known type member _ inside)
  encoder_names encoder member input inside := by
    have cyclic : input ∈ shared.types.cycles := assembles.encoders_known encoder member _ inside
    refine ⟨⟨shared.object input, ?_⟩, _, assembles.customType_of_cycle cyclic, rfl⟩
    rw [assembles.encoders]
    have distinct : ((shared.types.cycles.map fun input =>
        (input, shared.object input)).map Prod.fst).Nodup := by
      rw [List.map_map]
      exact (List.map_id _).symm ▸ assembles.aligned.nodup
    exact Dictionary.filter_key_eq_singleton distinct (List.mem_map_of_mem cyclic)

/-- Whatever is sent, no encoder is missing. -/
theorem encodeVariables_ne_unknownEncoder
    (assembles : bound.Assembles options m inventory plans clients shared) (operation : String)
    (parameters : Elm.Value) (input : String) :
    m.encodeVariables operation parameters ≠ .error (.unknownEncoder input) := by
  have resolves {encoder : Encoder} (member : encoder ∈ m.allEncoders) : encoder.Resolves m := by
    intro name inside
    have cyclic : name ∈ shared.types.cycles := assembles.encoders_known encoder member _ inside
    exact ⟨_, assembles.encoder_of_cycle cyclic⟩
  have declared : ∀ name encoder, m.encoder name = some encoder → encoder.Resolves m := by
    intro name encoder found
    have member := List.mem_reverse.mp (Dictionary.mem_of_lookup found)
    exact resolves (List.mem_append_right _ (List.mem_map_of_mem (f := Prod.snd) member))
  refine Module.encodeVariables_ne_unknownEncoder declared ?_ parameters
  intro request found parameter among
  apply resolves
  refine List.mem_append_left _ (List.mem_flatMap.mpr ⟨request, List.mem_of_find?_eq_some found, ?_⟩)
  exact List.mem_map_of_mem among

/-- Whatever is received, no value is unknown that its enumeration has. -/
theorem decodeResponse_root_ne
    (assembles : bound.Assembles options m inventory plans clients shared) {operation : String}
    {data : Json} {cause : DecodeError} (failed : m.decodeResponse operation data = .error cause)
    {enum wire : String} {values : List String}
    (body : bound.schema.get? enum = some (.enum values)) (member : wire ∈ values) :
    cause.root ≠ .unknownEnumValue enum wire := by
  intro unknown
  unfold Module.decodeResponse at failed
  split at failed
  · next decoder found =>
      obtain ⟨request, _, decoded⟩ := Option.bind_eq_some_iff.mp found
      obtain ⟨inside, lacks⟩ := Decoder.run_unknownEnumValue failed unknown
      have listed := Dictionary.mem_of_lookup decoded
      have known := assembles.decoders_noted _ listed _ inside
      obtain ⟨declared, there, rfl⟩ := List.mem_map.mp known
      have enumsOf := (inventory_sound assembles.collected).enumsOf
      have found' : m.enum declared.name = some declared := by
        rw [← assembles.declares.enums] at there
        exact Module.enum_of_mem (assembles.declares.enums ▸ enumsOf.nodup) there
      obtain ⟨others, body', same⟩ := enumsOf.ofSchema declared there
      obtain rfl : values = others := by simpa [body] using body'
      rw [Module.Lacks, found', Option.bind_some, List.find?_eq_none] at lacks
      refine lacks ⟨wire, Name.enumConstructor declared.name wire⟩ ?_ (beq_self_eq_true wire)
      rw [same]
      exact List.mem_map.mpr ⟨wire, member, rfl⟩
  · rw [← Except.error.inj failed] at unknown
    exact nomatch unknown

end BoundDocument.Assembles

/-- In a module that is generated for a document every name is declared, the unions in the type of
the result of each operation among them. So no encoder is missing when a request is made, and no
response has a value that is unknown although its enumeration has it. -/
theorem generate_closed {schema : Schema} {document : Document} {options : GenerationOptions}
    {m : Module} (generated : generate schema document options = .ok m) :
    m.Closed schema ∧
    (∃ bound, BoundDocument.bind schema document = .ok bound ∧
      ∀ operation ∈ document.operations, ∃ plan, bound.operationPlan operation = .ok plan ∧
        (Text.capitalize operation.title, RecordPlan.type none plan) ∈ m.typeAliases ∧
          m.DeclaresUnionsOf schema (RecordPlan.type none plan)) ∧
    (∀ operation parameters input,
      m.encodeVariables operation parameters ≠ .error (.unknownEncoder input)) ∧
    ∀ operation data cause, m.decodeResponse operation data = .error cause →
      ∀ enum values, schema.get? enum = some (.enum values) → ∀ wire ∈ values,
        cause.root ≠ .unknownEnumValue enum wire := by
  obtain ⟨bound, inventory, plans, clients, shared, bind_ok, assembles⟩ :=
    generate_assembles generated
  obtain ⟨rfl, _, _⟩ := BoundDocument.bind_eq_ok bind_ok
  refine ⟨assembles.closed, ⟨bound, bind_ok, ?_⟩, ?_, ?_⟩
  · intro operation member
    have among := (BoundDocument.operations_perm bind_ok).mem_iff.mpr member
    obtain ⟨client, there, made, _⟩ := assembles.takes among
    obtain ⟨plan, planned, result, _⟩ := made.planned
    have noted := (BoundDocument.operationPlan_noted assembles.collected among planned).type none
    refine ⟨plan, planned, ?_, assembles.declaresUnionsOf noted⟩
    rw [assembles.declares.typeAliases, ← result, ← made.resultType]
    exact List.mem_flatMap.mpr ⟨client, there, List.mem_cons_self⟩
  · exact fun operation parameters input =>
      assembles.encodeVariables_ne_unknownEncoder operation parameters input
  · intro operation data cause failed enum values body wire member
    exact assembles.decodeResponse_root_ne failed body member

theorem zoo_closed : ∃ document m, generate zooSchema document zooOptions = .ok m ∧
    m.Closed zooSchema ∧
    (∃ bound, BoundDocument.bind zooSchema document = .ok bound ∧
      ∃ operation ∈ document.operations, ∃ plan, bound.operationPlan operation = .ok plan ∧
        m.DeclaresUnionsOf zooSchema (RecordPlan.type none plan)) ∧
    (∀ parameters input, m.encodeVariables "Pets" parameters ≠ .error (.unknownEncoder input)) ∧
    ∀ data cause, m.decodeResponse "Pets" data = .error cause →
      cause.root ≠ .unknownEnumValue "Color" "WHITE" := by
  obtain ⟨document, m, _, generated, _, ⟨operation, among, _⟩, _⟩ := exists_zooModule
  obtain ⟨closed, ⟨bound, bind_ok, planned⟩, encodes, decodes⟩ := generate_closed generated
  obtain ⟨plan, made, _, united⟩ := planned operation among
  have body : zooSchema.get? "Color" = some (.enum ["BLACK", "WHITE"]) := by decide
  exact ⟨document, m, generated, closed, ⟨bound, bind_ok, operation, among, plan, made, united⟩,
    encodes "Pets", fun data cause failed =>
      decodes "Pets" data cause failed "Color" _ body "WHITE" (by decide)⟩

end ElmClient
