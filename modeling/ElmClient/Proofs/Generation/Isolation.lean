/-
Module: ElmClient.Proofs.Generation.Isolation
Purpose: Operations do not influence each other. In the module of a document every operation has the
  result, the decoder, the query and the parameters that it has in the module of the document with
  this one operation and the same fragments, which is accepted too. One walker that is led through
  all fragments and all operations plans them so and ends where it started.
Main exports: OperationClient.SameCall, Document.only, BoundDocument.only, Document.Yields,
  generate_isolates
-/
import ElmClient.Proofs.Generation.Agreement
import ElmClient.Proofs.Input.Agreement
import ElmClient.Proofs.Plan.Walk

namespace ElmClient

open GraphQL Elm

/-- What is told of a parameter beside its encoder: its name, its key and whether it is written out
case by case. -/
def Elm.Parameter.heading (parameter : Parameter) : String × String × Bool :=
  (parameter.name, parameter.wire, parameter.defaulted)

/-- The heading of the parameter for a variable. -/
def GraphQL.VariableDefinition.heading (definition : VariableDefinition) :
    String × String × Bool :=
  (Name.safe definition.name, definition.name,
    definition.default.isSome && !definition.type.isNonNull)

/-- Clients of an operation that agree on all but the types and the encoders of its variables. -/
structure OperationClient.SameCall (client other : OperationClient) : Prop where
  resultType : other.resultType = client.resultType
  result : other.result = client.result
  decoder : other.decoder = client.decoder
  request : { other.request with parameters := [] } = { client.request with parameters := [] }
  headings : other.request.parameters.map (·.heading) =
    client.request.parameters.map (·.heading)

/-! ### Clients and what was shared before -/

/-- Whatever was shared before, variables have their own headings. -/
theorem VariableParts.headings_foldl_add {schema : Schema} {resultType : String}
    (definitions : List VariableDefinition) (parts : VariableParts) (shared : SharedInputs) :
    (definitions.foldl (add schema resultType) (parts, shared)).1.parameters.map (·.heading) =
      parts.parameters.map (·.heading) ++ definitions.map (·.heading) := by
  induction definitions generalizing parts shared with
  | nil => simp
  | cons first rest ih =>
      have added : (add schema resultType (parts, shared) first).1.parameters.map (·.heading) =
          parts.parameters.map (·.heading) ++ [first.heading] := by
        simp only [add, List.map_append]
        rfl
      rw [List.foldl_cons]
      refine (ih (add schema resultType (parts, shared) first).1
        (add schema resultType (parts, shared) first).2).trans ?_
      rw [added, List.append_assoc, List.map_cons, List.singleton_append]

/-- The client of an operation with a plan and a query, given what its variables contribute. -/
def OperationClient.assemble (options : GenerationOptions) (operation : Operation)
    (kind : RequestKind) (plan : RecordPlan) (queryText : String) (parts : VariableParts) :
    OperationClient :=
  let resultType := Text.capitalize operation.title
  { resultType := resultType
    result := RecordPlan.type none plan
    inputs := parts.inputs
    parameters := parts.fields
    request :=
      { functionName := Text.decapitalize operation.title
        kind := kind
        method := options.methodOf kind
        operationName := operation.title
        queryText := queryText
        parametersType :=
          if parts.parameters.isEmpty then none else some (resultType ++ "_Input")
        parameters := parts.parameters
        response := options.responseType resultType
        decoderName := Name.decoder resultType }
    decoder := plan.responseDecoder resultType }

/-- Variables contribute nothing but their headings to the rest of a client. -/
theorem OperationClient.assemble_sameCall {options : GenerationOptions} {operation : Operation}
    {kind : RequestKind} {plan : RecordPlan} {queryText : String} {parts parts' : VariableParts}
    (headings : parts'.parameters.map (·.heading) = parts.parameters.map (·.heading)) :
    (assemble options operation kind plan queryText parts).SameCall
      (assemble options operation kind plan queryText parts') := by
  have both : parts'.parameters.isEmpty = parts.parameters.isEmpty := by
    rw [← List.isEmpty_map, headings, List.isEmpty_map]
  refine ⟨rfl, rfl, rfl, ?_, headings⟩
  simp only [assemble, both]

namespace BoundDocument

variable {bound : BoundDocument} {options : GenerationOptions} {operation : Operation}

/-- An operation has a client where it is no subscription and has a plan and a query. -/
theorem operationClient_eq_ok {shared later : SharedInputs} {client : OperationClient} :
    bound.operationClient options shared operation = .ok (client, later) ↔
      ∃ kind plan queryText, operation.requestKind = .ok kind ∧
        bound.operationPlan operation = .ok plan ∧ bound.queryText operation = .ok queryText ∧
          let parts := operation.definitions.foldl
            (VariableParts.add bound.schema (Text.capitalize operation.title)) ({}, shared)
          client = .assemble options operation kind plan queryText parts.1 ∧ later = parts.2 := by
  constructor
  · intro made
    obtain ⟨kind, kinded, planning⟩ := Except.bind_eq_ok.mp made
    obtain ⟨plan, planned, printing⟩ := Except.bind_eq_ok.mp planning
    obtain ⟨queryText, printed, same⟩ := Except.bind_eq_ok.mp printing
    obtain ⟨rfl, rfl⟩ := Prod.mk.inj (Except.pure_eq_ok.mp same)
    exact ⟨kind, plan, queryText, kinded, planned, printed, rfl, rfl⟩
  · rintro ⟨kind, plan, queryText, kinded, planned, printed, rfl, rfl⟩
    refine Except.bind_eq_ok.mpr ⟨kind, kinded, Except.bind_eq_ok.mpr ⟨plan, planned, ?_⟩⟩
    exact Except.bind_eq_ok.mpr ⟨queryText, printed, rfl⟩

/-- Whatever other operations have shared, an operation has a client. -/
theorem exists_operationClient {shared later : SharedInputs} {client : OperationClient}
    (made : bound.operationClient options shared operation = .ok (client, later))
    (shared' : SharedInputs) :
    ∃ other later', bound.operationClient options shared' operation = .ok (other, later') := by
  obtain ⟨kind, plan, queryText, kinded, planned, printed, _⟩ := operationClient_eq_ok.mp made
  exact ⟨_, _, operationClient_eq_ok.mpr
    ⟨kind, plan, queryText, kinded, planned, printed, rfl, rfl⟩⟩

/-- Whatever other operations have shared, an operation has the same client, but for the types and
the encoders of its variables. -/
theorem operationClient_sameCall {shared later shared' later' : SharedInputs}
    {client other : OperationClient}
    (made : bound.operationClient options shared operation = .ok (client, later))
    (made' : bound.operationClient options shared' operation = .ok (other, later')) :
    client.SameCall other := by
  obtain ⟨kind, plan, queryText, kinded, planned, printed, rfl, _⟩ := operationClient_eq_ok.mp made
  obtain ⟨kind', plan', queryText', kinded', planned', printed', rfl, _⟩ :=
    operationClient_eq_ok.mp made'
  obtain rfl := Except.ok.inj (kinded.symm.trans kinded')
  obtain rfl := Except.ok.inj (planned.symm.trans planned')
  obtain rfl := Except.ok.inj (printed.symm.trans printed')
  refine OperationClient.assemble_sameCall ?_
  rw [VariableParts.headings_foldl_add, VariableParts.headings_foldl_add]

/-- The clients of operations are made one by one. -/
theorem operationClients_made {operations : List Operation} {shared later : SharedInputs}
    {clients : List OperationClient}
    (made : bound.operationClients options operations shared = .ok (clients, later)) :
    List.Forall₂ (fun operation client => ∃ shared later,
      bound.operationClient options shared operation = .ok (client, later)) operations clients := by
  induction operations generalizing shared later clients with
  | nil =>
      obtain ⟨rfl, _⟩ := Prod.mk.inj (Except.ok.inj made)
      exact .nil
  | cons first rest ih =>
      obtain ⟨⟨client, between⟩, here, others⟩ := Except.bind_eq_ok.mp made
      obtain ⟨⟨clients', last⟩, followed, same⟩ := Except.bind_eq_ok.mp others
      obtain ⟨rfl, _⟩ := Prod.mk.inj (Except.pure_eq_ok.mp same)
      exact .cons ⟨shared, between, here⟩ (ih followed)

end BoundDocument

/-! ### One operation by itself -/

/-- The document with one operation and the same fragments. -/
def GraphQL.Document.only (document : Document) (operation : Operation) : Document :=
  { document with operations := [operation] }

namespace BoundDocument

/-- The bound document with one operation and the same fragments. -/
def only (bound : BoundDocument) (operation : Operation) : BoundDocument :=
  { bound with operations := [operation] }

variable {bound : BoundDocument} {options : GenerationOptions} {operation : Operation}

theorem bind_only {schema : Schema} {document : Document}
    (bind_ok : bind schema document = .ok bound) (member : operation ∈ bound.operations) :
    bind schema (document.only operation) = .ok (bound.only operation) := by
  simp only [bind] at bind_ok
  split at bind_ok
  case h_1 => cases bind_ok
  case h_2 supported =>
    obtain rfl := Except.ok.inj bind_ok
    have kind := List.find?_eq_none.mp supported operation member
    simp [bind, Document.only, only, sortByPosition, insertByPosition, kind]

/-- A document and one of its operations agree on the fragments that the document reaches. -/
theorem agreesOn_only {inventory : Inventory} (collected : bound.inventory = .ok inventory)
    (operation : Operation) : bound.AgreesOn (bound.only operation) (· ∈ inventory.fragments) :=
  ⟨rfl, fun _ _ => rfl, inventory_spreadClosed collected⟩

/-- An operation by itself has an inventory, whose fragments the document reaches. -/
theorem exists_inventory_only {inventory : Inventory} (collected : bound.inventory = .ok inventory)
    (member : operation ∈ bound.operations) :
    ∃ alone, (bound.only operation).inventory = .ok alone ∧
      ∀ name ∈ alone.fragments, name ∈ inventory.fragments := by
  have among := inventory_spreadsAmong collected member
  obtain ⟨same, grown⟩ := (agreesOn_only collected operation).collectOperation among {}
  obtain ⟨alone, made⟩ := exists_collectOperation
    (fun name known => inventory_fragmentResolves collected known)
    (inventory_spreadClosed collected) (inventory_operationResolves collected member) among {}
  refine ⟨alone, ?_, fun name known => ?_⟩
  · show [operation].foldlM (bound.only operation).collectOperation {} = .ok alone
    rw [List.foldlM_cons, same, made]
    rfl
  · exact ((grown alone made).added name known).resolve_left List.not_mem_nil

/-- An operation of a document with a module has a module by itself. -/
theorem Assembles.exists_only {m : Module} {inventory : Inventory}
    {plans : List (String × SelectionPlan)} {clients : List OperationClient} {shared : SharedInputs}
    (assembles : bound.Assembles options m inventory plans clients shared)
    (member : operation ∈ bound.operations) :
    ∃ alone, (bound.only operation).elmModule options = .ok alone := by
  have collected := assembles.collected
  have agrees := agreesOn_only collected operation
  obtain ⟨reached, collected', known⟩ := exists_inventory_only collected member
  obtain ⟨plans', planned⟩ : ∃ plans',
      reached.fragments.mapM (bound.only operation).declaredFragmentPlan = .ok plans' := by
    refine Except.exists_mapM_eq_ok fun name there => ?_
    obtain ⟨entry, _, declared⟩ := Forall₂.exists_right
      (Except.mapM_eq_ok.mp assembles.planned) (known name there)
    exact ⟨entry, (agrees.declaredFragmentPlan (known name there)).trans declared⟩
  obtain ⟨client, _, shared', later, made⟩ :=
    Forall₂.exists_right (operationClients_made assembles.made) member
  obtain ⟨lone, later', made'⟩ := exists_operationClient made {}
  rw [← agrees.operationClient (inventory_spreadsAmong collected member)] at made'
  have clients' : (bound.only operation).operationClients options [operation] {} =
      .ok ([lone], later') :=
    Except.bind_eq_ok.mpr ⟨_, made', rfl⟩
  exact Except.exists_bind_eq_ok collected'
    (Except.exists_bind_eq_ok planned (Except.exists_bind_eq_ok clients' ⟨_, rfl⟩))

end BoundDocument

/-! ### Modules and the walk -/

/-- A module of a document with clients for its operations. One walker that is led through the
fragments and then through the operations comes to their plans and ends where it started. -/
structure GraphQL.Document.Yields (document : Document) (schema : Schema)
    (options : GenerationOptions) (m : Module) (clients : List OperationClient) : Prop where
  generated : generate schema document options = .ok m
  requests : m.requests = clients.map (·.request)
  decoders : m.decoders = clients.map fun client => (client.request.decoderName, client.decoder)
  typeAliases : m.typeAliases = clients.flatMap OperationClient.aliases
  walked : ∃ bound inventory fragmentPlans plans,
    BoundDocument.bind schema document = .ok bound ∧ bound.inventory = .ok inventory ∧
      bound.walkDocument inventory.fragments bound.operations {} =
        .ok ((fragmentPlans, plans), {}) ∧
      m.fragments = fragmentPlans.map (fun entry => entry.2.declaration entry.1) ∧
      List.Forall₂ (fun plan client => client.result = RecordPlan.type none plan ∧
        client.decoder = plan.responseDecoder client.resultType) plans clients

namespace BoundDocument

variable {bound : BoundDocument} {options : GenerationOptions} {operation : Operation}

theorem Assembles.yields {schema : Schema} {document : Document} {m : Module}
    {inventory : Inventory} {plans : List (String × SelectionPlan)}
    {clients : List OperationClient} {shared : SharedInputs}
    (assembles : bound.Assembles options m inventory plans clients shared)
    (bind_ok : bind schema document = .ok bound)
    (generated : generate schema document options = .ok m) :
    document.Yields schema options m clients := by
  have declares := assembles.declares
  refine ⟨generated, declares.requests, declares.decoders, declares.typeAliases, ?_⟩
  have planned (operation : Operation) (client : OperationClient)
      (made : bound.ClientOf operation client) : ∃ plan, bound.operationPlan operation = .ok plan ∧
        client.result = RecordPlan.type none plan ∧
          client.decoder = plan.responseDecoder client.resultType := by
    rw [made.resultType]
    exact made.planned
  obtain ⟨operationPlans, planned, typed⟩ := Forall₂.exists_between declares.made planned
  have walked := bound.walkDocument_keeps inventory.fragments bound.operations []
  unfold Walk.Keeps Walk.Leads at walked
  rw [assembles.planned, Except.mapM_eq_ok.mpr planned] at walked
  exact ⟨bound, inventory, plans, operationPlans, bind_ok, assembles.collected, walked,
    declares.fragments, typed⟩

end BoundDocument

/-- Every operation of a document with a module has a module by itself, with the same result, the
same decoder, the same query and parameters with the same names. -/
theorem generate_isolates {schema : Schema} {document : Document} {options : GenerationOptions}
    {m : Module} (generated : generate schema document options = .ok m) :
    ∃ clients, document.Yields schema options m clients ∧
      List.Forall₂ (fun operation client =>
          client.request.operationName = operation.title ∧
            ∃ alone lone, (document.only operation).Yields schema options alone [lone] ∧
              client.SameCall lone)
        (BoundDocument.sortByPosition Operation.position document.operations) clients := by
  obtain ⟨bound, inventory, plans, clients, shared, bind_ok, assembles⟩ :=
    generate_assembles generated
  refine ⟨clients, assembles.yields bind_ok generated, ?_⟩
  rw [← (BoundDocument.bind_eq_ok bind_ok).2.1]
  refine Forall₂.imp_of_mem (BoundDocument.operationClients_made assembles.made) ?_
  rintro operation member client ⟨earlier, later, made⟩
  refine ⟨(BoundDocument.operationClient_clientOf made).operationName, ?_⟩
  obtain ⟨alone, moduleMade⟩ := assembles.exists_only member
  have bindOnly := BoundDocument.bind_only bind_ok member
  have generated' : generate schema (document.only operation) options = .ok alone :=
    Except.bind_eq_ok.mpr ⟨_, bindOnly, moduleMade⟩
  obtain ⟨inventory', plans', clients', shared', assembles'⟩ :=
    BoundDocument.elmModule_assembles moduleMade
  obtain ⟨⟨lone, later'⟩, made', others⟩ := Except.bind_eq_ok.mp assembles'.made
  obtain ⟨rfl, _⟩ := Prod.mk.inj (Except.ok.inj others)
  refine ⟨alone, lone, assembles'.yields bindOnly generated', ?_⟩
  rw [(BoundDocument.agreesOn_only assembles.collected operation).operationClient
    (BoundDocument.inventory_spreadsAmong assembles.collected member)] at made'
  exact BoundDocument.operationClient_sameCall made made'

/-! ### Two operations

The operations share a fragment and an input type that contains itself, so that only the first one
looks through the input type. -/

/-- A document with two operations about the pets of a zoo. -/
def zooPairText : String :=
  "query Pets($filter: Filter!) \x7b pets(filter: $filter) \x7b __typename ... on Dog \x7b " ++
    "...Coat name \x7d \x7d \x7d query Dogs($filter: Filter, $name: String = \"Rex\") \x7b " ++
      "pets(filter: $filter, name: $name) \x7b __typename ...Coat \x7d \x7d " ++
        "fragment Coat on Dog \x7b color \x7d"

theorem exists_zooPair : ∃ document m, Document.parse zooPairText = .ok document ∧
    generate zooSchema document zooOptions = .ok m ∧ document.operations.length = 2 := by
  have evaluated : (Document.parse zooPairText).toOption.any (fun document =>
      (generate zooSchema document zooOptions).toOption.any fun _ =>
        document.operations.length == 2) = true := by decide +kernel
  obtain ⟨document, parsed, evaluated⟩ := Except.any_toOption.mp evaluated
  obtain ⟨m, generated, two⟩ := Except.any_toOption.mp evaluated
  exact ⟨document, m, parsed, generated, eq_of_beq two⟩

/-- Each of the two operations has a module by itself with a client that makes the same call. -/
theorem zooPair_isolates : ∃ document m clients, Document.parse zooPairText = .ok document ∧
    document.Yields zooSchema zooOptions m clients ∧ clients.length = 2 ∧
      ∀ client ∈ clients, ∃ operation ∈ document.operations,
        client.request.operationName = operation.title ∧ ∃ alone lone,
          (document.only operation).Yields zooSchema zooOptions alone [lone] ∧
            client.SameCall lone := by
  obtain ⟨document, m, parsed, generated, two⟩ := exists_zooPair
  obtain ⟨clients, yields, each⟩ := generate_isolates generated
  have sorted := BoundDocument.sortByPosition_perm Operation.position document.operations
  refine ⟨document, m, clients, parsed, yields, ?_, fun client member => ?_⟩
  · rw [← each.length_eq, sorted.length_eq, two]
  · obtain ⟨operation, among, called⟩ := Forall₂.exists_left each member
    exact ⟨operation, sorted.mem_iff.mp among, called⟩

end ElmClient
