/-
Module: ElmClient.Proofs.Input.Clients
Purpose: What a module declares for the variables of its operations. The operations of a document
  share the two searches for types and encoders, which stay in step from each variable to the next;
  so every variable is a slot of one form, and every input type that contains itself is declared
  with a type and an encoder of one form.
Main exports: InputSlot.parameterField, OperationClient.Takes, BoundDocument.Assembles.aligned,
  BoundDocument.Assembles.takes, BoundDocument.Assembles.recursive
-/
import ElmClient.Proofs.Generation.CustomTypes
import ElmClient.Proofs.Input.Alignment

namespace ElmClient

open GraphQL Elm

namespace InputSlot

/-- The name of the alias of a variable. -/
def inputName (resultType : String) (slot : InputSlot) : String :=
  resultType ++ "_Input_" ++ Text.capitalize slot.name

/-- The alias of a variable. -/
def inputAlias (resultType : String) (slot : InputSlot) : String × TypeExpr :=
  (slot.inputName resultType, slot.field.2)

/-- A variable as a field of the parameters: by its alias, unless it is a scalar. -/
def parameterField (schema : Schema) (resultType : String) (slot : InputSlot) :
    String × TypeExpr :=
  (Name.safe slot.name,
    if schema.isDeclared slot.type.name then .named (slot.inputName resultType) else slot.field.2)

end InputSlot

/-- A client takes the variables of an operation as slots: its aliases, the fields of its parameters
and the encoders of its request are those of the slots. -/
structure OperationClient.Takes (schema : Schema) (cycles : List String) (operation : Operation)
    (client : OperationClient) (slots : List InputSlot) : Prop where
  declared : slots.map InputSlot.declared =
    operation.definitions.map fun definition => (definition.name, definition.type)
  forms : ∀ slot ∈ slots, InputForm schema cycles slot.type.name slot.elm slot.encoder
  inputs : client.inputs =
    (slots.filter fun slot => schema.isDeclared slot.type.name).map
      (InputSlot.inputAlias client.resultType)
  parameters : client.parameters = slots.map (InputSlot.parameterField schema client.resultType)
  encoded : client.request.parameters.map (·.toEncodedField) = slots.map InputSlot.encoded
  parametersType : client.request.parametersType =
    if slots.isEmpty then none else some (client.resultType ++ "_Input")

theorem OperationClient.Takes.mono {schema : Schema} {cycles later : List String}
    {operation : Operation} {client : OperationClient} {slots : List InputSlot}
    (takes : client.Takes schema cycles operation slots) (more : cycles ⊆ later) :
    client.Takes schema later operation slots :=
  { takes with forms := fun slot member => (takes.forms slot member).mono more }

/-- A slot stands for a variable of the operation. -/
theorem OperationClient.Takes.exists_definition {schema : Schema} {cycles : List String}
    {operation : Operation} {client : OperationClient} {slots : List InputSlot}
    (takes : client.Takes schema cycles operation slots) {slot : InputSlot}
    (member : slot ∈ slots) :
    ∃ definition ∈ operation.definitions,
      definition.name = slot.name ∧ definition.type = slot.type := by
  have declared := List.mem_map_of_mem (f := InputSlot.declared) member
  rw [takes.declared] at declared
  obtain ⟨definition, defined, same⟩ := List.mem_map.mp declared
  exact ⟨definition, defined, congrArg Prod.fst same, congrArg Prod.snd same⟩

/-! ### Variables and operations in order -/

/-- A variable as the two searches find it. -/
def SharedInputs.slot (schema : Schema) (shared : SharedInputs) (definition : VariableDefinition) :
    InputSlot where
  name := definition.name
  type := definition.type
  elm := (shared.types.typeOfName schema (schema.types.length + 1) [] definition.type.name).1
  encoder :=
    (shared.encoders.encoderOfName schema (schema.types.length + 1) [] definition.type.name).1

namespace VariableParts

variable {schema : Schema} {resultType : String} {parts : VariableParts} {shared : SharedInputs}
  {definition : VariableDefinition}

theorem inputs_add :
    (add schema resultType (parts, shared) definition).1.inputs = parts.inputs ++
      ([shared.slot schema definition].filter fun slot => schema.isDeclared slot.type.name).map
        (InputSlot.inputAlias resultType) := by
  by_cases known : schema.isDeclared definition.type.name = true
  · simp only [add, SharedInputs.slot, known, if_true, List.filter_cons_of_pos, List.filter_nil]
    rfl
  · simp [add, SharedInputs.slot, known]

theorem fields_add :
    (add schema resultType (parts, shared) definition).1.fields = parts.fields ++
      [(shared.slot schema definition).parameterField schema resultType] := rfl

theorem parameters_add :
    (add schema resultType (parts, shared) definition).1.parameters.map (·.toEncodedField) =
      parts.parameters.map (·.toEncodedField) ++ [(shared.slot schema definition).encoded] := by
  simp only [add, List.map_append]
  rfl

/-- Adding variables keeps the searches in step, and adds a slot for each variable. -/
theorem foldl_add (definitions : List VariableDefinition) {parts : VariableParts}
    {shared : SharedInputs} (aligned : Aligned schema [] shared.types shared.encoders) :
    let later := definitions.foldl (add schema resultType) (parts, shared)
    shared.types.cycles ⊆ later.2.types.cycles ∧
      Aligned schema [] later.2.types later.2.encoders ∧
        ∃ slots : List InputSlot,
          slots.map InputSlot.declared =
              definitions.map (fun definition => (definition.name, definition.type)) ∧
            (∀ slot ∈ slots,
              InputForm schema later.2.types.cycles slot.type.name slot.elm slot.encoder) ∧
            later.1.inputs = parts.inputs ++
              (slots.filter fun slot => schema.isDeclared slot.type.name).map
                (InputSlot.inputAlias resultType) ∧
            later.1.fields = parts.fields ++
              slots.map (InputSlot.parameterField schema resultType) ∧
            later.1.parameters.map (·.toEncodedField) =
              parts.parameters.map (·.toEncodedField) ++ slots.map InputSlot.encoded := by
  induction definitions generalizing parts shared with
  | nil => exact ⟨List.Subset.refl _, aligned, [], by simp⟩
  | cons first rest ih =>
      obtain ⟨grows, aligned', form⟩ := aligned.ofType first.type
      obtain ⟨grows', aligned'', slots, declared, each, inputs, fields, parameters⟩ :=
        @ih (add schema resultType (parts, shared) first).1
          (add schema resultType (parts, shared) first).2 aligned'
      refine ⟨List.Subset.trans grows grows', aligned'', shared.slot schema first :: slots,
        ?_, ?_, ?_, ?_, ?_⟩
      · rw [List.map_cons, declared]
        rfl
      · exact List.forall_mem_cons.mpr ⟨form.mono grows', each⟩
      · refine inputs.trans ?_
        rw [inputs_add, List.append_assoc, ← List.map_append, ← List.filter_append]
        rfl
      · refine fields.trans ?_
        rw [fields_add, List.append_assoc]
        rfl
      · refine parameters.trans ?_
        rw [parameters_add, List.append_assoc]
        rfl

end VariableParts

namespace BoundDocument

variable {bound : BoundDocument} {options : GenerationOptions}

theorem operationClient_takes {shared later : SharedInputs} {operation : Operation}
    {client : OperationClient} (aligned : Aligned bound.schema [] shared.types shared.encoders)
    (succeeded : bound.operationClient options shared operation = .ok (client, later)) :
    shared.types.cycles ⊆ later.types.cycles ∧
      Aligned bound.schema [] later.types later.encoders ∧
        ∃ slots, client.Takes bound.schema later.types.cycles operation slots := by
  obtain ⟨kind, _, planning⟩ := Except.bind_eq_ok.mp succeeded
  obtain ⟨plan, _, printing⟩ := Except.bind_eq_ok.mp planning
  obtain ⟨queryText, _, same⟩ := Except.bind_eq_ok.mp printing
  obtain ⟨rfl, rfl⟩ := Prod.mk.inj (Except.pure_eq_ok.mp same)
  obtain ⟨grows, aligned', slots, declared, each, inputs, fields, parameters⟩ :=
    @VariableParts.foldl_add bound.schema (Text.capitalize operation.title)
      operation.definitions {} shared aligned
  refine ⟨grows, aligned', slots, declared, each, inputs, fields, parameters, ?_⟩
  have together := congrArg List.isEmpty parameters
  rw [List.map_nil, List.nil_append, List.isEmpty_map, List.isEmpty_map] at together
  simp only [together]

/-- Whatever the order of the operations, the searches stay in step through all of them. -/
theorem operationClients_takes {operations : List Operation} {shared later : SharedInputs}
    {clients : List OperationClient}
    (aligned : Aligned bound.schema [] shared.types shared.encoders)
    (succeeded : bound.operationClients options operations shared = .ok (clients, later)) :
    shared.types.cycles ⊆ later.types.cycles ∧
      Aligned bound.schema [] later.types later.encoders ∧
        List.Forall₂ (fun operation client => bound.ClientOf operation client ∧
          ∃ slots, client.Takes bound.schema later.types.cycles operation slots)
          operations clients := by
  induction operations generalizing shared later clients with
  | nil =>
      obtain ⟨rfl, rfl⟩ := Prod.mk.inj (Except.ok.inj succeeded)
      exact ⟨List.Subset.refl _, aligned, .nil⟩
  | cons first rest ih =>
      obtain ⟨⟨client, between⟩, made, others⟩ := Except.bind_eq_ok.mp succeeded
      obtain ⟨⟨clients', last⟩, followed, same⟩ := Except.bind_eq_ok.mp others
      obtain ⟨rfl, rfl⟩ := Prod.mk.inj (Except.pure_eq_ok.mp same)
      obtain ⟨grows, aligned', slots, takes⟩ := operationClient_takes aligned made
      obtain ⟨grows', aligned'', each⟩ := ih aligned' followed
      exact ⟨List.Subset.trans grows grows', aligned'',
        .cons ⟨operationClient_clientOf made, slots, takes.mono grows'⟩ each⟩

/-! ### The declarations of a module -/

namespace Assembles

variable {m : Module} {inventory : Inventory} {plans : List (String × SelectionPlan)}
  {clients : List OperationClient} {shared : SharedInputs}

/-- The searches are in step when all operations are through. -/
theorem aligned (assembles : bound.Assembles options m inventory plans clients shared) :
    Aligned bound.schema [] shared.types shared.encoders :=
  (operationClients_takes (Aligned.empty bound.schema) assembles.made).2.1

/-- The client of every operation takes its variables as slots. -/
theorem takes (assembles : bound.Assembles options m inventory plans clients shared)
    {operation : Operation} (member : operation ∈ bound.operations) :
    ∃ client ∈ clients, bound.ClientOf operation client ∧
      ∃ slots, client.Takes bound.schema shared.types.cycles operation slots :=
  Forall₂.exists_right (operationClients_takes (Aligned.empty bound.schema) assembles.made).2.2
    member

/-- Every client takes the variables of its operation as slots. -/
theorem takes_of_client (assembles : bound.Assembles options m inventory plans clients shared)
    {client : OperationClient} (member : client ∈ clients) :
    ∃ operation ∈ bound.operations, bound.ClientOf operation client ∧
      ∃ slots, client.Takes bound.schema shared.types.cycles operation slots :=
  Forall₂.exists_left (operationClients_takes (Aligned.empty bound.schema) assembles.made).2.2
    member

/-- Every input type that contains itself is declared by a type and an encoder of one form. -/
theorem recursive (assembles : bound.Assembles options m inventory plans clients shared)
    {input : String} (member : input ∈ shared.types.cycles) :
    InputObject bound.schema shared.types.cycles input (shared.record input)
      (shared.object input) := by
  obtain ⟨record, object, kept, kept', form⟩ := assembles.aligned.object_of_cycle member
  rw [SharedInputs.record, SharedInputs.object, kept, kept']
  exact form

/-- Every input type that contains itself has one encoder. -/
theorem encoder_of_cycle (assembles : bound.Assembles options m inventory plans clients shared)
    {input : String} (member : input ∈ shared.types.cycles) :
    m.encoder input = some (shared.object input) := by
  apply Module.encoder_of_mem
  · rw [assembles.encoders_fst]
    exact assembles.aligned.nodup
  · rw [assembles.encoders]
    exact List.mem_map_of_mem (f := fun input => (input, shared.object input)) member

theorem customType_of_cycle (assembles : bound.Assembles options m inventory plans clients shared)
    {input : String} (member : input ∈ shared.types.cycles) :
    shared.customType input ∈ m.customTypes := by
  rw [assembles.customTypes]
  exact List.mem_append_right _ (List.mem_map_of_mem member)

/-- The aliases of the clients are found under their names. -/
theorem aliasType_of_mem (assembles : bound.Assembles options m inventory plans clients shared)
    (distinct : m.typeNames.Nodup) {client : OperationClient} (among : client ∈ clients)
    {name : String} {type : TypeExpr} (member : (name, type) ∈ client.aliases) :
    m.aliasType name = some type := by
  apply Dictionary.lookup_of_mem (Module.typeAliases_nodup distinct)
  rw [assembles.declares.typeAliases]
  exact List.mem_flatMap.mpr ⟨client, among, member⟩

/-- No alias has the name of an input type that contains itself. -/
theorem aliasType_of_cycle (assembles : bound.Assembles options m inventory plans clients shared)
    (distinct : m.typeNames.Nodup) {input : String} (member : input ∈ shared.types.cycles) :
    m.aliasType (Text.capitalize input) = none :=
  Module.aliasType_customType distinct (assembles.customType_of_cycle member)

end Assembles

end BoundDocument

end ElmClient
